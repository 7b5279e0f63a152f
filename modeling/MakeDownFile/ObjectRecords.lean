import Mathlib.Logic.Function.Basic

/-! # Records of objects along a history

Objects are made, copied and acted on. A record starts when its object is made, goes along
into copies and changes with each act on the object; objects not made in the history have
none. -/
namespace ObjectRecords

variable {ι α κ β σ : Type*} [DecidableEq ι]

inductive Event (ι α : Type*) where
  | made (d : ι)
  | copied (c d : ι)
  | acted (c : ι) (a : α)
  | other
  deriving DecidableEq, Repr

def Event.target : Event ι α → Option ι
  | .made d => some d
  | .copied _ d => some d
  | .acted c _ => some c
  | .other => none

def record (start : κ) (next : κ → α → κ) (f : ι → Option κ) : Event ι α → ι → Option κ
  | .made d => Function.update f d (some start)
  | .copied c d => Function.update f d (f c)
  | .acted c a => Function.update f c ((f c).map fun k => next k a)
  | .other => f

def records (start : κ) (next : κ → α → κ) (hist : List (Event ι α)) : ι → Option κ :=
  hist.foldl (record start next) fun _ => none

variable {start : κ} {next : κ → α → κ} {f : ι → Option κ} {x : Event ι α}

theorem records_append {hist : List (Event ι α)} :
    records start next (hist ++ [x]) = record start next (records start next hist) x := by
  rw [records, List.foldl_append]
  rfl

theorem record_of_ne {d : ι} (hd : x.target ≠ some d) : record start next f x d = f d := by
  cases x with
  | other => rfl
  | _ =>
    apply Function.update_of_ne
    rintro rfl
    exact hd rfl

/-- What an event leaves recorded is an untouched record, a first one, a copied one or one
that an act has changed. -/
theorem record_cases {d : ι} {k : κ} (h : record start next f x d = some k) :
    (x.target ≠ some d ∧ f d = some k) ∨ (x = .made d ∧ k = start) ∨
      (∃ c, x = .copied c d ∧ f c = some k) ∨
      ∃ a k₀, x = .acted d a ∧ f d = some k₀ ∧ k = next k₀ a := by
  by_cases hd : x.target = some d
  · cases x with
    | made d' =>
      cases hd
      rw [record, Function.update_self] at h
      exact Or.inr (Or.inl ⟨rfl, (Option.some.inj h).symm⟩)
    | copied c d' =>
      cases hd
      rw [record, Function.update_self] at h
      exact Or.inr (Or.inr (Or.inl ⟨c, rfl, h⟩))
    | acted c a =>
      cases hd
      rw [record, Function.update_self] at h
      obtain ⟨k₀, hk₀, rfl⟩ := Option.map_eq_some_iff.mp h
      exact Or.inr (Or.inr (Or.inr ⟨a, k₀, rfl, hk₀, rfl⟩))
    | other => cases hd
  · rw [record_of_ne hd] at h
    exact Or.inl ⟨hd, h⟩

def Agrees (view : σ → ι → Option β) (holds : κ → β → Prop) (f : ι → Option κ) (s : σ) : Prop :=
  ∀ c k b, f c = some k → view s c = some b → holds k b

/-- An event keeps the agreement when it leaves other recorded objects alone and does right
by its own. -/
theorem Agrees.step {view : σ → ι → Option β} {holds : κ → β → Prop} {s s' : σ}
    (h : Agrees view holds f s)
    (hframe : ∀ c, x.target ≠ some c → f c ≠ none → view s' c = view s c)
    (hmade : ∀ d b, x = .made d → view s' d = some b → holds start b)
    (hcopied : ∀ c d k b, x = .copied c d → f c = some k → view s' d = some b → holds k b)
    (hacted : ∀ c a k b, x = .acted c a → f c = some k → view s' c = some b → holds (next k a) b) :
    Agrees view holds (record start next f x) s' := by
  intro c k b hk hb
  rcases record_cases hk with ⟨hx, hf⟩ | ⟨hx, rfl⟩ | ⟨c', hx, hf⟩ | ⟨a, k₀, hx, hf, rfl⟩
  · rw [hframe c hx (by rw [hf]; exact Option.some_ne_none k)] at hb
    exact h c k b hf hb
  · exact hmade c b hx hb
  · exact hcopied c' c k b hx hf hb
  · exact hacted c a k₀ b hx hf hb

end ObjectRecords
