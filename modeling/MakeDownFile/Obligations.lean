import Mathlib.Data.List.Basic

/-! # Obligations over traces

An event may incur obligations and pay others. A trace is settled when all that it incurs is
paid later in it. -/
namespace Obligations

variable {ε κ : Type*} {incurs : ε → List κ} {pays : ε → κ → Prop}

/-- Everything that is incurred is paid by a later event. -/
def Settled (incurs : ε → List κ) (pays : ε → κ → Prop) (t : List ε) : Prop :=
  ∀ a e b, t = a ++ e :: b → ∀ k ∈ incurs e, ∃ x ∈ b, pays x k

/-- What was owed before the trace is paid in it as well. -/
def SettledFrom (incurs : ε → List κ) (pays : ε → κ → Prop) (owed : List κ) (t : List ε) : Prop :=
  (∀ k ∈ owed, ∃ x ∈ t, pays x k) ∧ Settled incurs pays t

variable {owed : List κ} {e : ε} {k : κ} {t : List ε}

theorem settled_cons : Settled incurs pays (e :: t) ↔ SettledFrom incurs pays (incurs e) t := by
  constructor
  · intro h
    refine ⟨h [] e t rfl, ?_⟩
    rintro a x b rfl
    exact h (e :: a) x b rfl
  · rintro ⟨hfirst, hrest⟩ a x b heq
    cases a with
    | nil =>
      cases heq
      exact hfirst
    | cons y a =>
      cases heq
      exact hrest a x b rfl

end Obligations
