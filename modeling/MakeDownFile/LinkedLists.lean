import Mathlib.Data.Fintype.Option
import Mathlib.Data.Fintype.Pigeonhole
import Mathlib.Data.Nat.Find
import Mathlib.Tactic.Ring

/-! # Chains of pointers

Where a pointer gets by following the links from a list's head. A list either ends or comes back
to a node it has been at; the first such node is where its cycle begins. -/
namespace LinkedLists

variable {α : Type}

/-- `p->next`. A null pointer must not be followed. -/
def follow (next : α → Option α) : Option α → Option (Option α)
  | none => none
  | some x => some (next x)

/-- The pointer after some steps. It stays null behind the end. -/
def path (next : α → Option α) (head : Option α) : ℕ → Option α
  | 0 => head
  | k + 1 => (path next head k).bind next

variable {next : α → Option α} {head other : Option α} {m n k p : ℕ} {x : α}

/-- The cycle is entered after `m` steps: no node before is ever come back to. -/
structure EntersAt (next : α → Option α) (head : Option α) (m : ℕ) : Prop where
  again : ∃ p, 0 < p ∧ path next head (m + p) = path next head m
  inside : path next head m ≠ none
  first : ∀ k < m, ∀ p, 0 < p → path next head (k + p) ≠ path next head k

theorem path_add : path next (path next head m) k = path next head (m + k) := by
  induction k with
  | zero => rfl
  | succ k ih => rw [path, ih, Nat.add_succ, path]

theorem follow_path (hx : path next head k ≠ none) :
    follow next (path next head k) = some (path next head (k + 1)) := by
  obtain ⟨x, hx⟩ := Option.ne_none_iff_exists'.mp hx
  rw [path, hx]
  rfl

theorem path_ended (hend : path next head m = none) (hle : m ≤ n) : path next head n = none := by
  obtain ⟨k, rfl⟩ := Nat.exists_eq_add_of_le hle
  induction k with
  | zero => exact hend
  | succ k ih => rw [Nat.add_succ, path, ih (Nat.le_add_right m k), Option.bind_none]

theorem path_shift (h : path next head m = path next other n) (k : ℕ) :
    path next head (m + k) = path next other (n + k) := by
  rw [← path_add, ← path_add, h]

theorem path_periodic (h : path next head (m + p) = path next head m) (k j : ℕ) :
    path next head (m + k + j * p) = path next head (m + k) := by
  induction j with
  | zero => rw [Nat.zero_mul, Nat.add_zero]
  | succ j ih =>
    have hround : m + k + (j + 1) * p = m + p + (k + j * p) := by ring
    rw [← ih, hround, path_shift h, ← Nat.add_assoc]

theorem ended_once (hend : path next head n = none) (hx : path next head m = some x)
    (h : path next head (m + p) = path next head m) : p = 0 := by
  by_contra hp
  have hfar := path_periodic h 0 n
  rw [Nat.add_zero, hx, path_ended hend] at hfar
  · cases hfar
  · have := Nat.le_mul_of_pos_right n (Nat.pos_of_ne_zero hp)
    omega

theorem ended_injective (hend : path next head n = none) (hx : path next head m = some x)
    (h : path next head k = some x) : m = k := by
  rcases Nat.le_total m k with hle | hle
  · obtain ⟨p, rfl⟩ := Nat.exists_eq_add_of_le hle
    rw [ended_once hend hx (h.trans hx.symm), Nat.add_zero]
  · obtain ⟨p, rfl⟩ := Nat.exists_eq_add_of_le hle
    rw [ended_once hend h (hx.trans h.symm), Nat.add_zero]

theorem circular_not_ended (henter : EntersAt next head m) (n : ℕ) : path next head n ≠ none := by
  intro hend
  obtain ⟨p, hp, hagain⟩ := henter.again
  obtain ⟨x, hx⟩ := Option.ne_none_iff_exists'.mp henter.inside
  exact absurd (ended_once hend hx hagain) (Nat.ne_of_gt hp)

/-- In a finite memory a list ends or has a cycle. -/
theorem ends_or_enters [Finite α] (next : α → Option α) (head : Option α) :
    (∃ n, path next head n = none) ∨ ∃ m, EntersAt next head m := by
  classical
  by_cases hend : ∃ n, path next head n = none
  · exact Or.inl hend
  · have hagain : ∃ m, ∃ p, 0 < p ∧ path next head (m + p) = path next head m := by
      obtain ⟨i, j, hij, heq⟩ := Finite.exists_ne_map_eq_of_infinite (path next head)
      rcases Nat.lt_or_gt_of_ne hij with hlt | hlt
      · exact ⟨i, j - i, by omega, by rw [Nat.add_sub_cancel' (Nat.le_of_lt hlt), heq]⟩
      · exact ⟨j, i - j, by omega, by rw [Nat.add_sub_cancel' (Nat.le_of_lt hlt), heq]⟩
    refine Or.inr ⟨Nat.find hagain, Nat.find_spec hagain, fun hnil => hend ⟨_, hnil⟩, ?_⟩
    exact fun k hk p hp heq => Nat.find_min hagain hk ⟨p, hp, heq⟩

end LinkedLists
