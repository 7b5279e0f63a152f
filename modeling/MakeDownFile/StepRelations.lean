import Mathlib.Data.List.Basic
import Mathlib.Data.List.Induction

/-! # Runs of a step relation

Rules for relations between the states of several parties: what every step keeps, a run
keeps, and where a measure falls with every step, runs are bounded and end. -/
namespace StepRelations

variable {σ : Type*} {step : σ → σ → Prop}

inductive Run (step : σ → σ → Prop) : ℕ → σ → σ → Prop where
  | refl (s) : Run step 0 s s
  | tail {n s t u} : Run step n s t → step t u → Run step (n + 1) s u

/-- No step leads out of the state. -/
def Stuck (step : σ → σ → Prop) (s : σ) : Prop := ∀ t, ¬ step s t

theorem run_invariant {P : σ → Prop} (hstep : ∀ s t, P s → step s t → P t) {n : ℕ} {s t : σ}
    (hs : P s) (h : Run step n s t) : P t := by
  induction h with
  | refl => exact hs
  | tail _ hlast ih => exact hstep _ _ (ih hs) hlast

theorem run_head {n : ℕ} {s u : σ} (h : Run step (n + 1) s u) :
    ∃ t, step s t ∧ Run step n t u := by
  generalize hm : n + 1 = m at h
  induction h generalizing n with
  | refl => cases hm
  | tail hrun hlast ih =>
    rename_i k _ _ _
    cases hm
    cases k with
    | zero =>
      cases hrun
      exact ⟨_, hlast, .refl _⟩
    | succ k =>
      obtain ⟨t, ht, hrest⟩ := ih rfl
      exact ⟨t, ht, hrest.tail hlast⟩

/-- A run goes on with steps of some of its kinds. -/
theorem run_append {part : σ → σ → Prop} (hsub : ∀ s t, part s t → step s t) {n m : ℕ}
    {s t u : σ} (h : Run step n s t) (hrest : Run part m t u) : Run step (n + m) s u := by
  induction hrest with
  | refl => exact h
  | tail _ hlast ih => exact (ih h).tail (hsub _ _ hlast)

/-- Where every state of a kind has a step to another one of it, there are runs of every
length. -/
theorem run_unbounded {P : σ → Prop} (hnext : ∀ s, P s → ∃ t, step s t ∧ P t) {s : σ} (hs : P s)
    (n : ℕ) : ∃ t, Run step n s t ∧ P t := by
  induction n with
  | zero => exact ⟨s, .refl s, hs⟩
  | succ n ih =>
    obtain ⟨t, hrun, ht⟩ := ih
    obtain ⟨u, hstep, hu⟩ := hnext t ht
    exact ⟨u, .tail hrun hstep, hu⟩

section Measure

variable {P : σ → Prop} {measure : σ → ℕ} (hstep : ∀ s t, P s → step s t → P t)
  (hless : ∀ s t, P s → step s t → measure t < measure s)
include hstep hless

theorem run_bounded {n : ℕ} {s t : σ} (hs : P s) (h : Run step n s t) :
    n + measure t ≤ measure s := by
  induction h with
  | refl => exact Nat.le_of_eq (Nat.zero_add _)
  | tail hrun hlast ih =>
    have hfall := hless _ _ (run_invariant hstep hs hrun) hlast
    have := ih hs
    omega

/-- Every run can be continued until nothing more can happen. -/
theorem run_to_stuck {s : σ} (hs : P s) : ∃ n t, Run step n s t ∧ P t ∧ Stuck step t := by
  by_contra hno
  -- without a stuck state there would be runs longer than the measure allows
  have hnext : ∀ t, (P t ∧ ∃ n, Run step n s t) → ∃ u, step t u ∧ P u ∧ ∃ n, Run step n s u := by
    intro t ⟨ht, n, hrun⟩
    by_contra hend
    apply hno
    exact ⟨n, t, hrun, ht, fun u hu => hend ⟨u, hu, hstep t u ht hu, n + 1, .tail hrun hu⟩⟩
  obtain ⟨t, hrun, _⟩ := run_unbounded hnext ⟨hs, 0, .refl s⟩ (measure s + 1)
  have := run_bounded hstep hless hs hrun
  omega

end Measure

section Events

variable {ε : Type*} {step : σ → ε → Option σ}

/-- The state behind some events, if every one of them can happen. -/
def after (step : σ → ε → Option σ) (s : σ) (es : List ε) : Option σ := es.foldlM step s

theorem after_append {s u : σ} {es es' : List ε} :
    after step s (es ++ es') = some u ↔
      ∃ t, after step s es = some t ∧ after step t es' = some u := by
  rw [after, List.foldlM_append]
  exact Option.bind_eq_some_iff

theorem after_singleton {s t : σ} {e : ε} : after step s [e] = some t ↔ step s e = some t := by
  simp [after]

/-- What every event preserves of the state and the events before it holds behind a run. -/
theorem after_invariant {P : List ε → σ → Prop}
    (hstep : ∀ es s e t, P es s → step s e = some t → P (es ++ [e]) t) {s t : σ} {es : List ε}
    (hs : P [] s) (h : after step s es = some t) : P es t := by
  induction es using List.reverseRecOn generalizing t with
  | nil =>
    obtain rfl : s = t := Option.some.inj h
    exact hs
  | append_singleton es e ih =>
    obtain ⟨u, hu, hlast⟩ := after_append.mp h
    exact hstep es u e t (ih hu) (after_singleton.mp hlast)

end Events

end StepRelations
