import Mathlib.Data.List.Infix

/-! # Chains of prefix tests

A list of names is tried in order against the front of a string, and a later match
overrides an earlier one. -/
namespace PrefixChains

variable {α : Type*}

def PrefixFree (names : List (List α)) : Prop := ∀ a ∈ names, ∀ b ∈ names, a <+: b → a = b

/-- Two names of a prefix-free list at the front of one string are the same name. -/
theorem PrefixFree.unique {names : List (List α)} (hp : PrefixFree names) {s a b : List α}
    (ha : a ∈ names) (hb : b ∈ names) (has : a <+: s) (hbs : b <+: s) : a = b := by
  rcases List.prefix_or_prefix_of_prefix has hbs with h | h
  · exact hp a ha b hb h
  · exact (hp b hb a ha h).symm

theorem take_prefix_iff {name s : List α} : s.take name.length = name ↔ name <+: s :=
  eq_comm.trans List.prefix_iff_eq_take.symm

variable [DecidableEq α]

instance (names : List (List α)) : Decidable (PrefixFree names) :=
  inferInstanceAs (Decidable (∀ a ∈ names, ∀ b ∈ names, a <+: b → a = b))

def lastMatch (s : List α) : List (List α) → Option (List α) → Option (List α)
  | [], found => found
  | name :: names, found =>
    lastMatch s names (if s.take name.length = name then some name else found)

theorem last_match_sound {s : List α} {names : List (List α)} {found : Option (List α)}
    {n : List α} (h : lastMatch s names found = some n) :
    n ∈ names ∧ n <+: s ∨ found = some n := by
  induction names generalizing found with
  | nil => exact Or.inr h
  | cons name names ih =>
    rcases ih h with ⟨hmem, hpre⟩ | hfound
    · exact Or.inl ⟨List.mem_cons_of_mem _ hmem, hpre⟩
    · split at hfound
      · rename_i hmatch
        cases hfound
        exact Or.inl ⟨List.mem_cons_self, take_prefix_iff.mp hmatch⟩
      · exact Or.inr hfound

theorem last_match_none {s : List α} {names : List (List α)} {found : Option (List α)} :
    lastMatch s names found = none ↔ found = none ∧ ∀ n ∈ names, ¬ n <+: s := by
  induction names generalizing found with
  | nil => simp [lastMatch]
  | cons name names ih =>
    rw [lastMatch, ih]
    by_cases hmatch : s.take name.length = name
    · simp [hmatch, take_prefix_iff.mp hmatch]
    · have hpre : ¬ name <+: s := fun hp => hmatch (take_prefix_iff.mpr hp)
      simp [hmatch, hpre]

/-- On a prefix-free list the order of the tests does not matter: the chain finds the one
name at the front of the string. -/
theorem last_match_iff {names : List (List α)} (hp : PrefixFree names) {s n : List α} :
    lastMatch s names none = some n ↔ n ∈ names ∧ n <+: s := by
  constructor
  · intro h
    rcases last_match_sound h with hn | hnone
    · exact hn
    · cases hnone
  · rintro ⟨hmem, hpre⟩
    cases hm : lastMatch s names none with
    | none => exact absurd hpre ((last_match_none.mp hm).2 n hmem)
    | some m =>
      rcases last_match_sound hm with ⟨hmem', hpre'⟩ | hnone
      · rw [hp.unique hmem hmem' hpre hpre']
      · cases hnone

end PrefixChains
