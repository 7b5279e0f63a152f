import Mathlib.Algebra.Order.BigOperators.Group.List
import Mathlib.Data.List.Sort

/-! # Matchings of lists

Each element of one list is matched with the element of the other at its place, at a cost. -/
namespace SortedMatchings

variable {α β γ : Type*} [AddCommMonoid γ]

def cost (f : α → β → γ) (a : List α) (b : List β) : γ := (List.zipWith f a b).sum

section Cost

variable {f : α → β → γ} {a a' : List α} {b b' : List β} {x : α} {y : β}

@[simp] theorem cost_nil : cost f a [] = 0 := by
  rw [cost, List.zipWith_nil_right, List.sum_nil]

@[simp] theorem cost_cons : cost f (x :: a) (y :: b) = f x y + cost f a b := by
  rw [cost, List.zipWith_cons_cons, List.sum_cons, cost]

theorem cost_append (h : a.length = b.length) :
    cost f (a ++ a') (b ++ b') = cost f a b + cost f a' b' := by
  rw [cost, List.zipWith_append h, List.sum_append, cost, cost]

theorem cost_take (h : a.length ≤ b.length) : cost f a (b.take a.length) = cost f a b := by
  induction a generalizing b with
  | nil => rfl
  | cons x a ih =>
    cases b with
    | nil => cases h
    | cons y b =>
      rw [List.length_cons, List.take_succ_cons, cost_cons, cost_cons,
        ih (Nat.le_of_succ_le_succ h)]

/-- The elements of one list keep their matches when they are put in another order. -/
theorem exists_perm_cost_eq (h : a.Perm a') (hlen : a.length = b.length) :
    ∃ b', b'.Perm b ∧ cost f a' b' = cost f a b := by
  induction h generalizing b with
  | nil => exact ⟨b, List.Perm.refl b, rfl⟩
  | cons x _ ih =>
    cases b with
    | nil => cases hlen
    | cons y b =>
      obtain ⟨b', hb', hcost⟩ := ih (Nat.succ.inj hlen)
      refine ⟨y :: b', hb'.cons y, ?_⟩
      rw [cost_cons, cost_cons, hcost]
  | swap x z a =>
    cases b with
    | nil => cases hlen
    | cons y b =>
      cases b with
      | nil => cases Nat.succ.inj hlen
      | cons w b =>
        refine ⟨w :: y :: b, List.Perm.swap y w b, ?_⟩
        rw [cost_cons, cost_cons, cost_cons, cost_cons, add_left_comm]
  | trans hab _ ih ih' =>
    obtain ⟨b', hb', hcost⟩ := ih hlen
    obtain ⟨b'', hb'', hcost'⟩ := ih' (by rw [← hab.length_eq, hlen, hb'.length_eq])
    exact ⟨b'', hb''.trans hb', hcost'.trans hcost⟩

variable [PartialOrder γ] [IsOrderedAddMonoid γ]

theorem cost_mono [Preorder β] (hf : ∀ x, Monotone (f x)) (h : List.Forall₂ (· ≤ ·) b b') :
    cost f a b ≤ cost f a b' := by
  induction h generalizing a with
  | nil => exact le_refl _
  | cons hyy' _ ih =>
    cases a with
    | nil => exact le_refl _
    | cons x a =>
      rw [cost_cons, cost_cons]
      exact add_le_add (hf x hyy') ih

theorem cost_anti [Preorder α] (hf : ∀ y, Antitone (f · y)) (h : List.Forall₂ (· ≤ ·) a a') :
    cost f a' b ≤ cost f a b := by
  induction h generalizing b with
  | nil => exact le_refl _
  | cons hxx' _ ih =>
    cases b with
    | nil => rw [cost_nil, cost_nil]
    | cons y b =>
      rw [cost_cons, cost_cons]
      exact add_le_add (hf y hxx') ih

end Cost

section Sorted

variable [LinearOrder β] {b m : List β}

theorem getElem_le_of_le (hm : m.Pairwise (· ≤ ·)) {i j : ℕ} (hij : i ≤ j) (hj : j < m.length) :
    m[i] ≤ m[j] := by
  rcases Nat.eq_or_lt_of_le hij with rfl | hlt
  · exact le_refl _
  · exact List.pairwise_iff_getElem.mp hm i j (by omega) hj hlt

theorem take_le_sublist (h : b.Sublist m) (hm : m.Pairwise (· ≤ ·)) :
    List.Forall₂ (· ≤ ·) (m.take b.length) b := by
  have hpoint : ∀ i (hj : i < m.length) (hi : i < b.length), m[i] ≤ b[i] := by
    induction h with
    | slnil => exact fun i hj => absurd hj (Nat.not_lt_zero i)
    | @cons b m x h ih =>
      intro i hj hi
      have hlast : i + 1 < (x :: m).length := by
        rw [List.length_cons]
        exact Nat.succ_lt_succ (hi.trans_le h.length_le)
      have hnext : (x :: m)[i] ≤ (x :: m)[i + 1] := getElem_le_of_le hm (Nat.le_succ i) hlast
      exact hnext.trans (ih (List.pairwise_cons.mp hm).2 i (hi.trans_le h.length_le) hi)
    | @cons_cons b m x h ih =>
      intro i hj hi
      cases i with
      | zero => exact le_refl x
      | succ i =>
        exact ih (List.pairwise_cons.mp hm).2 i (Nat.lt_of_succ_lt_succ hj)
          (Nat.lt_of_succ_lt_succ hi)
  rw [List.forall₂_iff_get]
  refine ⟨List.length_take_of_le h.length_le, fun i hi hib => ?_⟩
  rw [List.get_eq_getElem, List.get_eq_getElem, List.getElem_take]
  exact hpoint i _ hib

theorem sublist_le_drop (h : b.Sublist m) (hm : m.Pairwise (· ≤ ·)) :
    List.Forall₂ (· ≤ ·) b (m.drop (m.length - b.length)) := by
  have hpoint : ∀ i (hi : i < b.length) (hj : m.length - b.length + i < m.length),
      b[i] ≤ m[m.length - b.length + i] := by
    induction h with
    | slnil => exact fun i hi => absurd hi (Nat.not_lt_zero i)
    | @cons b m x h ih =>
      intro i hi hj
      have hle := h.length_le
      have hrest := ih (List.pairwise_cons.mp hm).2 i hi (by omega)
      have hplace : (x :: m).length - b.length + i = m.length - b.length + i + 1 := by
        rw [List.length_cons]
        omega
      simp only [hplace, List.getElem_cons_succ]
      exact hrest
    | @cons_cons b m x h ih =>
      intro i hi hj
      have hle := h.length_le
      cases i with
      | zero => exact getElem_le_of_le hm (Nat.zero_le _) hj
      | succ i =>
        have hrest := ih (List.pairwise_cons.mp hm).2 i (Nat.lt_of_succ_lt_succ hi) (by
          rw [List.length_cons] at hi
          omega)
        have hplace : (x :: m).length - (x :: b).length + (i + 1) =
            m.length - b.length + i + 1 := by
          rw [List.length_cons, List.length_cons]
          omega
        simp only [hplace, List.getElem_cons_succ]
        exact hrest
  rw [List.forall₂_iff_get]
  refine ⟨?_, fun i hib hi => ?_⟩
  · rw [List.length_drop]
    have hle := h.length_le
    omega
  · rw [List.get_eq_getElem, List.get_eq_getElem, List.getElem_drop]
    exact hpoint i hib _

end Sorted

section Uncrossed

variable [PartialOrder γ] [IsOrderedAddMonoid γ] [LinearOrder α] [LinearOrder β]
  {f : α → β → γ} {a n : List α} {b m : List β} {x : α}

/-- Matching in order is never dearer than crosswise. -/
def Uncrossed (f : α → β → γ) : Prop :=
  ∀ x x' y y', x ≤ x' → y ≤ y' → f x y + f x' y' ≤ f x y' + f x' y

theorem cost_orderedInsert (hf : Uncrossed f) (ha : (x :: a).Pairwise (· ≤ ·)) (y : β)
    (hlen : a.length = b.length) :
    cost f (x :: a) (b.orderedInsert (· ≤ ·) y) ≤ f x y + cost f a b := by
  induction b generalizing x a with
  | nil => rw [List.orderedInsert_nil, cost_cons, cost_nil]
  | cons z b ih =>
    by_cases hyz : y ≤ z
    · rw [List.orderedInsert_cons_of_le _ _ hyz, cost_cons]
    · cases a with
      | nil => cases hlen
      | cons x' a =>
        obtain ⟨hx, ha⟩ := List.pairwise_cons.mp ha
        rw [List.orderedInsert_of_not_le _ _ hyz, cost_cons, cost_cons]
        calc f x z + cost f (x' :: a) (b.orderedInsert (· ≤ ·) y)
            ≤ f x z + (f x' y + cost f a b) := add_le_add_right (ih ha (Nat.succ.inj hlen)) _
          _ = f x z + f x' y + cost f a b := (add_assoc _ _ _).symm
          _ ≤ f x y + f x' z + cost f a b := add_le_add_left
              (hf x x' z y (hx x' List.mem_cons_self) (le_of_not_ge hyz)) _
          _ = f x y + (f x' z + cost f a b) := add_assoc _ _ _

/-- Sorting the other list makes a matching with a sorted list no dearer. -/
theorem cost_insertionSort (hf : Uncrossed f) (ha : a.Pairwise (· ≤ ·))
    (hlen : a.length = b.length) : cost f a (b.insertionSort (· ≤ ·)) ≤ cost f a b := by
  induction b generalizing a with
  | nil => exact le_refl _
  | cons y b ih =>
    cases a with
    | nil => cases hlen
    | cons x a =>
      have hrest := ih (List.pairwise_cons.mp ha).2 (Nat.succ.inj hlen)
      rw [List.insertionSort_cons, cost_cons]
      apply (cost_orderedInsert hf ha y _).trans (add_le_add_right hrest _)
      rw [List.length_insertionSort]
      exact Nat.succ.inj hlen

/-- The greatest elements of one list with the least of the other, in order, are a cheapest
matching of that many elements. -/
theorem greedy_cost_le (hf : Uncrossed f) (hmono : ∀ x, Monotone (f x))
    (hanti : ∀ y, Antitone (f · y)) (ha : a.Subperm n) (hb : b.Subperm m)
    (hlen : a.length = b.length) :
    cost f ((n.insertionSort (· ≤ ·)).drop (n.length - a.length))
      ((m.insertionSort (· ≤ ·)).take b.length) ≤ cost f a b := by
  obtain ⟨b', hb', hcost⟩ := exists_perm_cost_eq (f := f)
    (List.perm_insertionSort (· ≤ ·) a).symm hlen
  have hpeople : (a.insertionSort (· ≤ ·)).Sublist (n.insertionSort (· ≤ ·)) :=
    List.sublist_insertionSort' (List.pairwise_insertionSort _ a)
      ((List.perm_insertionSort _ a).subperm.trans ha)
  have hboats : (b'.insertionSort (· ≤ ·)).Sublist (m.insertionSort (· ≤ ·)) :=
    List.sublist_insertionSort' (List.pairwise_insertionSort _ b')
      (((List.perm_insertionSort _ b').trans hb').subperm.trans hb)
  have hbelow := take_le_sublist hboats (List.pairwise_insertionSort _ m)
  have habove := sublist_le_drop hpeople (List.pairwise_insertionSort _ n)
  rw [List.length_insertionSort, hb'.length_eq] at hbelow
  rw [List.length_insertionSort, List.length_insertionSort] at habove
  calc cost f ((n.insertionSort (· ≤ ·)).drop (n.length - a.length))
        ((m.insertionSort (· ≤ ·)).take b.length)
      ≤ cost f (a.insertionSort (· ≤ ·)) ((m.insertionSort (· ≤ ·)).take b.length) :=
        cost_anti hanti habove
    _ ≤ cost f (a.insertionSort (· ≤ ·)) (b'.insertionSort (· ≤ ·)) := cost_mono hmono hbelow
    _ ≤ cost f (a.insertionSort (· ≤ ·)) b' :=
        cost_insertionSort hf (List.pairwise_insertionSort _ a) (by
          rw [List.length_insertionSort, hlen, hb'.length_eq])
    _ = cost f a b := hcost

end Uncrossed

end SortedMatchings
