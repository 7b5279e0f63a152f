import Mathlib.Data.List.Basic
import Mathlib.Data.Option.Basic

/-! # Runs of a machine that answers its calls

A step takes a call to a reply and a next state, or is undefined. Histories pair calls
with their replies. -/
namespace TraceRuns

variable {σ ε ρ : Type*}

/-- Calls in order; undefined as soon as one call is. -/
def run (step : ε → σ → Option (ρ × σ)) : List ε → σ → Option (List ρ × σ)
  | [], s => some ([], s)
  | e :: es, s =>
    match step e s with
    | none => none
    | some (r, s') => (run step es s').map fun p => (r :: p.1, p.2)

variable {step : ε → σ → Option (ρ × σ)}

theorem run_cons {e : ε} {es : List ε} {s t : σ} {rs : List ρ} :
    run step (e :: es) s = some (rs, t) ↔
      ∃ r s' rs', step e s = some (r, s') ∧ run step es s' = some (rs', t) ∧ rs = r :: rs' := by
  constructor
  · intro h
    unfold run at h
    split at h
    · cases h
    · rename_i r s' hstep
      obtain ⟨⟨rs', t'⟩, hrun, heq⟩ := Option.map_eq_some_iff.mp h
      cases heq
      exact ⟨r, s', rs', hstep, hrun, rfl⟩
  · rintro ⟨r, s', rs', hstep, hrun, rfl⟩
    simp only [run, hstep, hrun, Option.map_some]

theorem run_invariant {P : σ → Prop} {es : List ε}
    (hstep : ∀ e ∈ es, ∀ s r s', P s → step e s = some (r, s') → P s') {s t : σ} {rs : List ρ}
    (hs : P s) (h : run step es s = some (rs, t)) : P t := by
  induction es generalizing s rs with
  | nil => cases h; exact hs
  | cons e es ih =>
    obtain ⟨r, s', rs', he, hrun, rfl⟩ := run_cons.mp h
    exact ih (fun x hx => hstep x (List.mem_cons_of_mem _ hx))
      (hstep e List.mem_cons_self s r s' hs he) hrun

/-- Every step of a run, taken from history `hist` and state `s` on, satisfies `Q`. -/
def Along (step : ε → σ → Option (ρ × σ)) (Q : List (ε × ρ) → σ → ε → ρ → σ → Prop) :
    List (ε × ρ) → List ε → σ → Prop
  | _, [], _ => True
  | hist, e :: es, s =>
    ∀ r s', step e s = some (r, s') →
      Q hist s e r s' ∧ Along step Q (hist ++ [(e, r)]) es s'

variable {Q Q' : List (ε × ρ) → σ → ε → ρ → σ → Prop} {P : List (ε × ρ) → σ → Prop}

theorem along_cons {hist : List (ε × ρ)} {e : ε} {es : List ε} {s s' : σ} {r : ρ}
    (h : step e s = some (r, s')) :
    Along step Q hist (e :: es) s ↔
      Q hist s e r s' ∧ Along step Q (hist ++ [(e, r)]) es s' := by
  constructor
  · exact fun ha => ha r s' h
  · intro ha r' s'' h'
    cases h.symm.trans h'
    exact ha

/-- With an invariant that the steps in question keep, two properties that agree at every
step agree over the run. -/
theorem along_congr {es : List ε}
    (hstep : ∀ e ∈ es, ∀ hist s r s', P hist s → step e s = some (r, s') →
      (Q hist s e r s' ↔ Q' hist s e r s') ∧ (Q hist s e r s' → P (hist ++ [(e, r)]) s'))
    {hist : List (ε × ρ)} {s : σ} (hs : P hist s) :
    Along step Q hist es s ↔ Along step Q' hist es s := by
  induction es generalizing hist s with
  | nil => exact Iff.rfl
  | cons e es ih =>
    have ih' : ∀ {hist s}, P hist s → (Along step Q hist es s ↔ Along step Q' hist es s) :=
      ih fun x hx => hstep x (List.mem_cons_of_mem _ hx)
    constructor
    · intro ha r s' he
      obtain ⟨hq, hrest⟩ := ha r s' he
      obtain ⟨hiff, hkeep⟩ := hstep e List.mem_cons_self hist s r s' hs he
      exact ⟨hiff.mp hq, (ih' (hkeep hq)).mp hrest⟩
    · intro ha r s' he
      obtain ⟨hq', hrest⟩ := ha r s' he
      obtain ⟨hiff, hkeep⟩ := hstep e List.mem_cons_self hist s r s' hs he
      exact ⟨hiff.mpr hq', (ih' (hkeep (hiff.mpr hq'))).mpr hrest⟩

/-- Every call of a run, also one that is not answered, satisfies `C` when it is made. -/
def Throughout (step : ε → σ → Option (ρ × σ)) (C : List (ε × ρ) → σ → ε → Prop) :
    List (ε × ρ) → List ε → σ → Prop
  | _, [], _ => True
  | hist, e :: es, s =>
    C hist s e ∧ ∀ r s', step e s = some (r, s') → Throughout step C (hist ++ [(e, r)]) es s'

/-- With an invariant of all steps, two properties that agree wherever it holds agree
throughout a run. -/
theorem throughout_congr {C C' : List (ε × ρ) → σ → ε → Prop}
    (hcongr : ∀ hist s e, P hist s → (C hist s e ↔ C' hist s e))
    (hkeep : ∀ hist s e r s', P hist s → step e s = some (r, s') → P (hist ++ [(e, r)]) s')
    {hist : List (ε × ρ)} {es : List ε} {s : σ} (hs : P hist s) :
    Throughout step C hist es s ↔ Throughout step C' hist es s := by
  induction es generalizing hist s with
  | nil => exact Iff.rfl
  | cons e es ih =>
    apply and_congr (hcongr hist s e hs)
    constructor
    · intro h r s' he
      exact (ih (hkeep hist s e r s' hs he)).mp (h r s' he)
    · intro h r s' he
      exact (ih (hkeep hist s e r s' hs he)).mpr (h r s' he)

/-- If a good state stays good on steps with `Q`, and turns bad for ever on any other, then
a run ends well exactly when all its steps satisfy `Q`. -/
theorem along_iff_good {Good Bad : σ → Prop} {es : List ε}
    (hgood : ∀ e ∈ es, ∀ hist s r s', Good s → step e s = some (r, s') →
      (Q hist s e r s' → Good s') ∧ (¬ Q hist s e r s' → Bad s'))
    (hbad : ∀ e ∈ es, ∀ s r s', Bad s → step e s = some (r, s') → Bad s')
    {hist : List (ε × ρ)} {s t : σ} {rs : List ρ} (hs : Good s)
    (h : run step es s = some (rs, t)) :
    (Along step Q hist es s → Good t) ∧ (¬ Along step Q hist es s → Bad t) := by
  induction es generalizing hist s rs with
  | nil =>
    cases h
    exact ⟨fun _ => hs, fun hn => absurd trivial hn⟩
  | cons e es ih =>
    obtain ⟨r, s', rs', he, hrun, rfl⟩ := run_cons.mp h
    obtain ⟨hq, hnq⟩ := hgood e List.mem_cons_self hist s r s' hs he
    have ih' : Good s' → (Along step Q (hist ++ [(e, r)]) es s' → Good t) ∧
        (¬ Along step Q (hist ++ [(e, r)]) es s' → Bad t) := fun hg => ih
      (fun x hx => hgood x (List.mem_cons_of_mem _ hx))
      (fun x hx => hbad x (List.mem_cons_of_mem _ hx)) hg hrun
    rw [along_cons he]
    by_cases hstep : Q hist s e r s'
    · obtain ⟨hall, hsome⟩ := ih' (hq hstep)
      exact ⟨fun ha => hall ha.2, fun hn => hsome fun ha => hn ⟨hstep, ha⟩⟩
    · refine ⟨fun ha => absurd ha.1 hstep, fun _ => ?_⟩
      exact run_invariant (fun x hx => hbad x (List.mem_cons_of_mem _ hx)) (hnq hstep) hrun

/-- A fault is answered too, and leaves the state alone. -/
def answer (step : ε → σ → Option (ρ × σ)) (e : ε) (s : σ) : Option ρ × σ :=
  match step e s with
  | none => (none, s)
  | some (r, s') => (some r, s')

def answers (step : ε → σ → Option (ρ × σ)) (view : ε → Bool) : List ε → σ → List (Option ρ)
  | [], _ => []
  | e :: es, s =>
    if view e then (answer step e s).1 :: answers step view es (answer step e s).2
    else answers step view es (answer step e s).2

/-- Two runs give a view the same answers when a relation between their states, which may
look at the calls to come, is kept by selected calls taken together, with equal answers,
and by each other call taken on the left alone. -/
theorem answers_filter {R : List ε → σ → σ → Prop} {view : ε → Bool}
    (hview : ∀ e es s t, view e = true → R (e :: es) s t →
      (answer step e s).1 = (answer step e t).1 ∧ R es (answer step e s).2 (answer step e t).2)
    (hhidden : ∀ e es s t, view e = false → R (e :: es) s t → R es (answer step e s).2 t)
    {es : List ε} {s t : σ} (h : R es s t) :
    answers step view es s = answers step (fun _ => true) (es.filter view) t := by
  induction es generalizing s t with
  | nil => rfl
  | cons e es ih =>
    cases he : view e with
    | true =>
      obtain ⟨hans, hrel⟩ := hview e es s t he h
      simp only [answers, he, if_true, List.filter_cons_of_pos, hans, ih hrel]
    | false =>
      have hrel := hhidden e es s t he h
      simp only [answers, he, Bool.false_eq_true, if_false]
      rw [ih hrel, List.filter_cons_of_neg (by simp [he])]

section Always

variable {Q : List ε → ε → Prop}

/-- Every event of a trace satisfies `Q` with all the events before it. -/
def Always (Q : List ε → ε → Prop) : List ε → List ε → Prop
  | _, [] => True
  | hist, e :: es => Q hist e ∧ Always Q (hist ++ [e]) es

theorem always_append {hist es es' : List ε} :
    Always Q hist (es ++ es') ↔ Always Q hist es ∧ Always Q (hist ++ es) es' := by
  induction es generalizing hist with
  | nil => simp [Always]
  | cons e es ih =>
    simp only [List.cons_append, Always, ih, List.append_assoc, and_assoc]
    rfl

theorem always_of_forall {hist es : List ε} (h : ∀ hist, ∀ e ∈ es, Q hist e) :
    Always Q hist es := by
  induction es generalizing hist with
  | nil => trivial
  | cons e es ih =>
    exact ⟨h hist e List.mem_cons_self, ih fun hist x hx => h hist x (List.mem_cons_of_mem _ hx)⟩

/-- What holds of the trace so far and stays so is there for every event. -/
theorem always_of_kept {P : List ε → Prop} {hist es : List ε}
    (hkeep : ∀ hist e, P hist → P (hist ++ [e])) (h : ∀ hist, P hist → ∀ e ∈ es, Q hist e)
    (hs : P hist) : Always Q hist es := by
  induction es generalizing hist with
  | nil => trivial
  | cons e es ih =>
    refine ⟨h hist hs e List.mem_cons_self, ih (fun hist hp x hx => ?_) (hkeep hist e hs)⟩
    exact h hist hp x (List.mem_cons_of_mem _ hx)

end Always

/-- `P` has happened, and `Q` has not happened since. -/
def Since (P Q : ε → Prop) (hist : List ε) : Prop :=
  ∃ t e u, hist = t ++ e :: u ∧ P e ∧ ∀ x ∈ u, ¬ Q x

theorem since_of_mem {P Q : ε → Prop} {hist : List ε} {e : ε} (he : e ∈ hist) (hp : P e)
    (hq : ∀ x ∈ hist, ¬ Q x) : Since P Q hist := by
  obtain ⟨t, u, rfl⟩ := List.append_of_mem he
  exact ⟨t, e, u, rfl, hp, fun x hx => hq x (List.mem_append_right _ (List.mem_cons_of_mem _ hx))⟩

end TraceRuns
