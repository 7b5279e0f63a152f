import Mathlib.Data.List.Basic

/-! # Programs as trees of calls

What a program computes between calls on its surroundings, whose replies have types of
their own. Undefined behaviour is a fault. The surroundings answer a call knowing all the
calls before it. -/
namespace CallPrograms

inductive Prog (C : Type) (R : C → Type) (α : Type) where
  | ret (a : α)
  | call (c : C) (k : R c → Prog C R α)
  | fault

variable {C : Type} {R : C → Type} {α β ι ρ σ τ : Type}

abbrev Event (R : C → Type) := (c : C) × R c

namespace Prog

def bind : Prog C R α → (α → Prog C R β) → Prog C R β
  | ret a, f => f a
  | call c k, f => call c fun r => (k r).bind f
  | fault, _ => fault

instance : Monad (Prog C R) where
  pure := ret
  bind := bind

/-- Goes on unless the first part has ended early. -/
def proceed (p : Prog C R (Except ρ σ)) (f : σ → Prog C R (Except ρ τ)) :
    Prog C R (Except ρ τ) :=
  p.bind fun
    | .ok s => f s
    | .error e => ret (.error e)

def iterate (body : ι → σ → Prog C R (Except ρ σ)) : List ι → σ → Prog C R (Except ρ σ)
  | [], s => ret (.ok s)
  | x :: xs, s => (body x s).proceed (iterate body xs)

@[simp] theorem pure_eq (a : α) : (pure a : Prog C R α) = ret a := rfl
@[simp] theorem pure_then (a : α) (f : α → Prog C R β) : (pure a : Prog C R α) >>= f = f a := rfl
@[simp] theorem call_bind (c : C) (k : R c → Prog C R α) (f : α → Prog C R β) :
    call c k >>= f = call c fun r => k r >>= f := rfl

theorem then_assoc {γ : Type} (p : Prog C R α) (f : α → Prog C R β) (g : β → Prog C R γ) :
    p >>= f >>= g = p >>= fun a => f a >>= g := by
  induction p with
  | ret a => rfl
  | fault => rfl
  | call c k ih => exact congrArg (call c) (funext ih)

/-- The calls of a run and its result, which a faulting run does not have. -/
def run (env : List (Event R) → (c : C) → R c) :
    List (Event R) → Prog C R α → List (Event R) × Option α
  | _, ret a => ([], some a)
  | hist, call c k =>
    let rest := run env (hist ++ [⟨c, env hist c⟩]) (k (env hist c))
    (⟨c, env hist c⟩ :: rest.1, rest.2)
  | _, fault => ([], none)

variable {env : List (Event R) → (c : C) → R c} {hist : List (Event R)}

@[simp] theorem run_ret (a : α) : run env hist (ret a) = ([], some a) := rfl
@[simp] theorem run_call (c : C) (k : R c → Prog C R α) : run env hist (call c k) =
    (⟨c, env hist c⟩ :: (run env (hist ++ [⟨c, env hist c⟩]) (k (env hist c))).1,
      (run env (hist ++ [⟨c, env hist c⟩]) (k (env hist c))).2) := rfl

theorem run_bind_some {p : Prog C R α} {f : α → Prog C R β} {t : List (Event R)} {a : α}
    (h : run env hist p = (t, some a)) : run env hist (p >>= f) =
      (t ++ (run env (hist ++ t) (f a)).1, (run env (hist ++ t) (f a)).2) := by
  induction p generalizing hist t with
  | ret b =>
    cases h
    rw [List.append_nil]
    rfl
  | fault => cases h
  | call c k ih =>
    obtain ⟨rfl, ha⟩ := Prod.mk.inj h
    have hrest := ih (env hist c) (Prod.ext rfl ha)
    rw [call_bind, run_call, hrest]
    simp only [List.append_assoc, List.nil_append, List.cons_append]

theorem run_bind_none {p : Prog C R α} {f : α → Prog C R β} {t : List (Event R)}
    (h : run env hist p = (t, none)) : run env hist (p >>= f) = (t, none) := by
  induction p generalizing hist t with
  | ret b => cases h
  | fault =>
    cases h
    rfl
  | call c k ih =>
    obtain ⟨rfl, ha⟩ := Prod.mk.inj h
    have hrest := ih (env hist c) (Prod.ext rfl ha)
    rw [call_bind, run_call, hrest]

theorem run_reply {p : Prog C R α} {k : ℕ} {e : Event R} (h : (run env hist p).1[k]? = some e) :
    e.2 = env (hist ++ (run env hist p).1.take k) e.1 := by
  induction p generalizing hist k with
  | ret a => cases h
  | fault => cases h
  | call c f ih =>
    cases k with
    | zero =>
      cases h
      rw [List.take_zero, List.append_nil]
    | succ k =>
      rw [run_call, List.getElem?_cons_succ] at h
      have hrest := ih (env hist c) h
      rw [List.append_assoc, List.singleton_append] at hrest
      exact hrest

theorem run_good {Good : Event R → Prop} (hgood : ∀ hist c, Good ⟨c, env hist c⟩)
    (p : Prog C R α) : ∀ e ∈ (run env hist p).1, Good e := by
  induction p generalizing hist with
  | ret a => exact fun e he => by cases he
  | fault => exact fun e he => by cases he
  | call c k ih => exact List.forall_mem_cons.mpr ⟨hgood hist c, ih (env hist c)⟩

/-- Every run, whatever the replies, ends with `Q` of its calls and its result. -/
def Holds (Q : List (Event R) → Option α → Prop) : Prog C R α → Prop
  | ret a => Q [] (some a)
  | call c k => ∀ r, Holds (fun t o => Q (⟨c, r⟩ :: t) o) (k r)
  | fault => Q [] none

variable {P Q : List (Event R) → Option α → Prop} {p : Prog C R α}

theorem holds_run (h : Holds Q p) (env : List (Event R) → (c : C) → R c)
    (hist : List (Event R)) : Q (run env hist p).1 (run env hist p).2 := by
  induction p generalizing Q hist with
  | ret a => exact h
  | fault => exact h
  | call c k ih => exact ih (env hist c) (h (env hist c)) (hist ++ [⟨c, env hist c⟩])

theorem holds_mono (hPQ : ∀ t o, P t o → Q t o) (h : Holds P p) : Holds Q p := by
  induction p generalizing P Q with
  | ret a => exact hPQ _ _ h
  | fault => exact hPQ _ _ h
  | call c k ih => exact fun r => ih r (fun t o => hPQ (⟨c, r⟩ :: t) o) (h r)

theorem holds_of_forall (h : ∀ t o, Q t o) : Holds Q p := by
  induction p generalizing Q with
  | ret a => exact h _ _
  | fault => exact h _ _
  | call c k ih => exact fun r => ih r fun t o => h (⟨c, r⟩ :: t) o

theorem holds_and (hP : Holds P p) (hQ : Holds Q p) : Holds (fun t o => P t o ∧ Q t o) p := by
  induction p generalizing P Q with
  | ret a => exact ⟨hP, hQ⟩
  | fault => exact ⟨hP, hQ⟩
  | call c k ih => exact fun r => ih r (hP r) (hQ r)

theorem holds_forall {κ : Sort*} {Q : κ → List (Event R) → Option α → Prop}
    (h : ∀ i, Holds (Q i) p) : Holds (fun t o => ∀ i, Q i t o) p := by
  induction p generalizing Q with
  | ret a => exact h
  | fault => exact h
  | call c k ih => exact fun r => ih r fun i => h i r

/-- The second part of a program may end at once, or fault. -/
theorem holds_ret {t : List (Event R)} {a : α} (h : Q t (some a)) :
    Holds (fun u o => Q (t ++ u) o) (ret a) := by
  rw [← List.append_nil t] at h
  exact h

theorem holds_fault {t : List (Event R)} (h : Q t none) :
    Holds (fun u o => Q (t ++ u) o) (fault : Prog C R α) := by
  rw [← List.append_nil t] at h
  exact h

theorem holds_then {c : C} {f : R c → Prog C R α}
    (h : ∀ r, Holds (fun t o => Q (⟨c, r⟩ :: t) o) (f r)) : Holds Q (call c ret >>= f) := h

theorem holds_bind {Q : List (Event R) → Option β → Prop} {f : α → Prog C R β}
    (hp : Holds P p) (hfault : ∀ t, P t none → Q t none)
    (hnext : ∀ t a, P t (some a) → Holds (fun u o => Q (t ++ u) o) (f a)) :
    Holds Q (p >>= f) := by
  induction p generalizing P Q with
  | ret a => exact hnext [] a hp
  | fault => exact hfault [] hp
  | call c k ih =>
    exact fun r => ih r (hp r) (fun t => hfault (⟨c, r⟩ :: t)) fun t a => hnext (⟨c, r⟩ :: t) a

theorem holds_proceed {P : List (Event R) → Option (Except ρ σ) → Prop}
    {Q : List (Event R) → Option (Except ρ τ) → Prop} {p : Prog C R (Except ρ σ)}
    {f : σ → Prog C R (Except ρ τ)} (hp : Holds P p) (hfault : ∀ t, P t none → Q t none)
    (hstop : ∀ t e, P t (some (.error e)) → Q t (some (.error e)))
    (hnext : ∀ t s, P t (some (.ok s)) → Holds (fun u o => Q (t ++ u) o) (f s)) :
    Holds Q (p.proceed f) := by
  apply holds_bind hp hfault
  intro t r hr
  cases r with
  | ok s => exact hnext t s hr
  | error e => exact holds_ret (hstop t e hr)

def Only (A : C → Prop) : Prog C R α → Prop
  | ret _ => True
  | call c k => A c ∧ ∀ r, Only A (k r)
  | fault => True

section Only

variable {A : C → Prop}

theorem only_ret (a : α) : Only A (pure a : Prog C R α) := trivial

theorem only_call {c : C} (hc : A c) : Only A (call c ret : Prog C R (R c)) :=
  ⟨hc, fun _ => trivial⟩

theorem only_then {c : C} (hc : A c) {f : R c → Prog C R α} (hf : ∀ r, Only A (f r)) :
    Only A (call c ret >>= f) := ⟨hc, hf⟩

theorem only_bind (hp : Only A p) {f : α → Prog C R β} (hf : ∀ a, Only A (f a)) :
    Only A (p >>= f) := by
  induction p with
  | ret a => exact hf a
  | fault => trivial
  | call c k ih => exact ⟨hp.1, fun r => ih r (hp.2 r)⟩

theorem only_ite {b : Prop} [Decidable b] {q : Prog C R α} (hp : Only A p) (hq : Only A q) :
    Only A (if b then p else q) := by
  by_cases hb : b
  · rwa [if_pos hb]
  · rwa [if_neg hb]

theorem only_mono {B : C → Prop} (hAB : ∀ c, A c → B c) (h : Only A p) : Only B p := by
  induction p with
  | ret a => trivial
  | fault => trivial
  | call c k ih => exact ⟨hAB c h.1, fun r => ih r (h.2 r)⟩

theorem only_holds (h : Only A p) : Holds (fun t _ => ∀ e ∈ t, A e.1) p := by
  induction p with
  | ret a => exact fun e he => by cases he
  | fault => exact fun e he => by cases he
  | call c k ih =>
    exact fun r => holds_mono (fun t o ht => List.forall_mem_cons.mpr ⟨h.1, ht⟩) (ih r (h.2 r))

end Only

section Loops

/-- How a loop stands: within its invariant, left early, or faulting. -/
def Ends (I : List (Event R) → σ → Prop) (E : List (Event R) → Option ρ → Prop)
    (t : List (Event R)) : Option (Except ρ σ) → Prop
  | some (.ok s) => I t s
  | some (.error e) => E t (some e)
  | none => E t none

theorem ends_mono {I J : List (Event R) → σ → Prop} {E : List (Event R) → Option ρ → Prop}
    (hIJ : ∀ t s, I t s → J t s) {t : List (Event R)} {o : Option (Except ρ σ)}
    (h : Ends I E t o) : Ends J E t o := by
  cases o with
  | none => exact h
  | some r =>
    cases r with
    | ok s => exact hIJ t s h
    | error e => exact h

/-- The invariant sees the turns still to come and the calls made so far. -/
theorem holds_iterate {I : List ι → List (Event R) → σ → Prop}
    {E : List (Event R) → Option ρ → Prop} {body : ι → σ → Prog C R (Except ρ σ)}
    (hbody : ∀ x xs t s, I (x :: xs) t s → Holds (fun u o => Ends (I xs) E (t ++ u) o) (body x s))
    {xs : List ι} {t : List (Event R)} {s : σ} (h : I xs t s) :
    Holds (fun u o => Ends (I []) E (t ++ u) o) (iterate body xs s) := by
  induction xs generalizing t s with
  | nil =>
    rw [← List.append_nil t] at h
    exact h
  | cons x xs ih =>
    apply holds_proceed (hbody x xs t s h)
    · exact fun u hu => hu
    · exact fun u e hu => hu
    · intro u s' hs
      have hrest := ih hs
      exact holds_mono (fun v o hv => by rwa [List.append_assoc] at hv) hrest

end Loops

section Follows

/-- Where every reply is good, the calls are `cs` and what the run ends with is in `A`. -/
def Follows (Good : Event R → Prop) (cs : List C) (A : α → Prop) (t : List (Event R))
    (o : Option α) : Prop :=
  (∀ e ∈ t, Good e) → t.map Sigma.fst = cs ∧ ∃ a, o = some a ∧ A a

variable {Good : Event R → Prop} {cs ds : List C} {A : α → Prop} {B : β → Prop}

theorem follows_ret {a : α} (h : A a) : Holds (Follows Good [] A) (pure a : Prog C R α) :=
  fun _ => ⟨rfl, a, rfl, h⟩

theorem follows_call {c : C} {k : R c → Prog C R α}
    (h : ∀ r, Good ⟨c, r⟩ → Holds (Follows Good cs A) (k r)) :
    Holds (Follows Good (c :: cs) A) (call c k) := by
  intro r
  by_cases hr : Good ⟨c, r⟩
  · refine holds_mono (fun t o ht hgood => ?_) (h r hr)
    obtain ⟨hcalls, hend⟩ := ht fun e he => hgood e (List.mem_cons_of_mem _ he)
    exact ⟨by rw [List.map_cons, hcalls], hend⟩
  · exact holds_of_forall fun t o hgood => absurd (hgood _ List.mem_cons_self) hr

theorem follows_then {c : C} {f : R c → Prog C R α}
    (h : ∀ r, Good ⟨c, r⟩ → Holds (Follows Good cs A) (f r)) :
    Holds (Follows Good (c :: cs) A) (call c ret >>= f) := follows_call h

theorem follows_mono {A' : α → Prop} (hA : ∀ a, A a → A' a) (h : Holds (Follows Good cs A) p) :
    Holds (Follows Good cs A') p := by
  refine holds_mono (fun t o ht hgood => ?_) h
  obtain ⟨hcalls, a, ho, ha⟩ := ht hgood
  exact ⟨hcalls, a, ho, hA a ha⟩

theorem follows_bind {f : α → Prog C R β} (hp : Holds (Follows Good cs A) p)
    (hf : ∀ a, A a → Holds (Follows Good ds B) (f a)) :
    Holds (Follows Good (cs ++ ds) B) (p >>= f) := by
  apply holds_bind hp
  · intro t ht hgood
    obtain ⟨-, a, ⟨⟩, -⟩ := ht hgood
  · intro t a ht
    by_cases hgood : ∀ e ∈ t, Good e
    · obtain ⟨hcalls, b, hb, hA⟩ := ht hgood
      cases hb
      refine holds_mono (fun u o hu hall => ?_) (hf a hA)
      obtain ⟨hrest, hend⟩ := hu fun e he => hall e (List.mem_append_right t he)
      exact ⟨by rw [List.map_append, hcalls, hrest], hend⟩
    · exact holds_of_forall fun u o hall =>
        absurd (fun e he => hall e (List.mem_append_left u he)) hgood

theorem follows_iterate {I : List ι → σ → Prop} {body : ι → σ → Prog C R (Except ρ σ)}
    {next : ι → C} (hbody : ∀ x xs s, I (x :: xs) s →
      Holds (Follows Good [next x] fun r => ∃ s', r = .ok s' ∧ I xs s') (body x s))
    {xs : List ι} {s : σ} (h : I xs s) :
    Holds (Follows Good (xs.map next) fun r => ∃ s', r = .ok s' ∧ I [] s')
      (iterate body xs s) := by
  induction xs generalizing s with
  | nil => exact follows_ret ⟨s, rfl, h⟩
  | cons x xs ih =>
    refine follows_bind (hbody x xs s h) fun r hr => ?_
    obtain ⟨s', rfl, hs'⟩ := hr
    exact ih hs'

end Follows

end Prog

end CallPrograms
