import MakeDownFile.ArrayRanges

/-! # Searching a rotated array

The two searches halve a range of an array that is sorted but for its rotation. Only the second
one is meant for elements that occur more than once. -/
namespace RotatedSearch

open ArrayRanges

def search (n : ℤ) (nums : ℤ → ℤ) (target left right : ℤ) : Option ℤ :=
  if left ≤ right then do
    let mid := left + (right - left) / 2
    let x ← load n nums mid
    let y ← load n nums right
    let z ← load n nums left
    if x = target then some mid
    else if x < y then
      if x < target ∧ y ≥ target then search n nums target (mid + 1) right
      else search n nums target left (mid - 1)
    else if z ≤ target ∧ x > target then search n nums target left (mid - 1)
    else search n nums target (mid + 1) right
  else some (-1)
termination_by (right + 1 - left).toNat

/-- Whether `target` is there. Where the middle and the end are the same, only the end is
dropped. The sum of the two indices has to be an int. -/
def searchRepeated (n : ℤ) (A : ℤ → ℤ) (target left right : ℤ) : Option Bool :=
  if left ≤ right then do
    let _ ← fitInt (left + right)
    let mid := (left + right) / 2
    let x ← load n A mid
    let y ← load n A right
    let z ← load n A left
    if x = target then some true
    else if x < y then
      if x < target ∧ y ≥ target then searchRepeated n A target (mid + 1) right
      else searchRepeated n A target left (mid - 1)
    else if x > y then
      if z ≤ target ∧ x > target then searchRepeated n A target left (mid - 1)
      else searchRepeated n A target (mid + 1) right
    else searchRepeated n A target left (right - 1)
  else some false
termination_by (right + 1 - left).toNat

/-- The first search, of a whole vector, the size of which is converted to int. -/
def searchNums (n : ℤ) (nums : ℤ → ℤ) (target : ℤ) : Option ℤ :=
  search n nums target 0 (Int.bmod (n - 1) (2 ^ 32))

def searchArray (n : ℤ) (A : ℤ → ℤ) (target : ℤ) : Option Bool :=
  if n = 0 then some false else searchRepeated n A target 0 (n - 1)

/-- Sorted before `p` and from `p` on, with nothing greater from `p` on than before. -/
structure Rotated (a : ℤ → ℤ) (p l r : ℤ) : Prop where
  sorted : ∀ i j, l ≤ i → i ≤ j → j ≤ r → j < p ∨ p ≤ i → a i ≤ a j
  across : ∀ i j, l ≤ i → i < p → p ≤ j → j ≤ r → a j ≤ a i

def OccursIn (a : ℤ → ℤ) (target l r : ℤ) : Prop := ∃ i, l ≤ i ∧ i ≤ r ∧ a i = target

section Halves

variable {a : ℤ → ℤ} {p l r l' r' mid target : ℤ}

theorem Rotated.mono (h : Rotated a p l r) (hl : l ≤ l') (hr : r' ≤ r) : Rotated a p l' r' :=
  ⟨fun i j hi hij hj => h.sorted i j (hl.trans hi) hij (hj.trans hr),
    fun i j hi hip hpj hj => h.across i j (hl.trans hi) hip hpj (hj.trans hr)⟩

theorem occursIn_mono (hl : l ≤ l') (hr : r' ≤ r) (h : OccursIn a target l' r') :
    OccursIn a target l r := by
  obtain ⟨i, hi, hir, ha⟩ := h
  exact ⟨i, hl.trans hi, hir.trans hr, ha⟩

variable (h : Rotated a p l r) (hl : l ≤ mid) (hr : mid ≤ r) (hne : a mid ≠ target)

include h hl hr hne

omit hne in
/-- With a greater end the half behind the middle is sorted, and may have the target. -/
theorem occurs_behind_sorted (hlt : a mid < a r) (ht : a mid < target ∧ a r ≥ target) :
    OccursIn a target l r ↔ OccursIn a target (mid + 1) r := by
  refine ⟨fun ⟨i, hi, hir, ha⟩ => ?_, occursIn_mono (by omega) (le_refl r)⟩
  have hmid : mid ≠ r := fun heq => by
    rw [heq] at hlt
    exact lt_irrefl _ hlt
  by_cases him : mid < i
  · exact ⟨i, by omega, hir, ha⟩
  · by_cases hsame : mid < p ∨ p ≤ i
    · have := h.sorted i mid hi (by omega) hr hsame
      omega
    · -- the end is below what stands before the rotation
      have := h.across i r hi (by omega) (by omega) (le_refl r)
      exact ⟨r, by omega, le_refl r, by omega⟩

/-- Or it does not have the target. -/
theorem occurs_before_sorted (hlt : a mid < a r) (ht : ¬ (a mid < target ∧ a r ≥ target)) :
    OccursIn a target l r ↔ OccursIn a target l (mid - 1) := by
  refine ⟨fun ⟨i, hi, hir, ha⟩ => ?_, occursIn_mono (le_refl l) (by omega)⟩
  by_cases him : i < mid
  · exact ⟨i, hi, by omega, ha⟩
  · have hp : r < p ∨ p ≤ mid := by
      by_contra hcon
      have := h.across mid r hl (by omega) (by omega) (le_refl r)
      omega
    have := h.sorted mid i hl (by omega) hir (by omega)
    have := h.sorted i r hi hir (le_refl r) (by omega)
    omega

omit hne in
/-- With a smaller end the half before the middle is sorted, and may have the target. -/
theorem occurs_before_rotation (ht : a l ≤ target ∧ a mid > target) :
    OccursIn a target l r ↔ OccursIn a target l (mid - 1) := by
  refine ⟨fun ⟨i, hi, hir, ha⟩ => ?_, occursIn_mono (le_refl l) (by omega)⟩
  have hmid : l ≠ mid := fun heq => by
    rw [heq] at ht
    omega
  by_cases him : i < mid
  · exact ⟨i, hi, by omega, ha⟩
  · by_cases hip : i < p ∨ p ≤ mid
    · have := h.sorted mid i hl (by omega) hir hip
      omega
    · have := h.across l i (le_refl l) (by omega) (by omega) hir
      exact ⟨l, le_refl l, by omega, by omega⟩

theorem occurs_behind_rotation (hgt : a mid > a r) (ht : ¬ (a l ≤ target ∧ a mid > target)) :
    OccursIn a target l r ↔ OccursIn a target (mid + 1) r := by
  refine ⟨fun ⟨i, hi, hir, ha⟩ => ?_, occursIn_mono (by omega) (le_refl r)⟩
  by_cases him : mid < i
  · exact ⟨i, by omega, hir, ha⟩
  · have hp : mid < p := by
      by_contra hcon
      have := h.sorted mid r hl hr (le_refl r) (by omega)
      omega
    have := h.sorted l i (le_refl l) hi (by omega) (by omega)
    have := h.sorted i mid hi (by omega) hr (by omega)
    omega

omit h hl hr in
/-- An end that is the same as the middle is not the target. -/
theorem occurs_before_end (heq : a mid = a r) :
    OccursIn a target l r ↔ OccursIn a target l (r - 1) := by
  refine ⟨fun ⟨i, hi, hir, ha⟩ => ?_, occursIn_mono (le_refl l) (by omega)⟩
  have hir' : i ≠ r := fun hi => by
    rw [hi] at ha
    omega
  exact ⟨i, hi, by omega, ha⟩

end Halves

section Search

variable {n p target : ℤ} {a : ℤ → ℤ}

theorem turn_reads {l r : ℤ} (h0 : 0 ≤ l) (hn : r < n) (hlr : l ≤ r) :
    load n a ((l + r) / 2) = some (a ((l + r) / 2)) ∧ load n a r = some (a r) ∧
      load n a l = some (a l) :=
  ⟨load_eq (by omega) (by omega), load_eq (by omega) hn, load_eq h0 (by omega)⟩

theorem search_repeated_finds {l r : ℤ} (hint : n ≤ 2 ^ 30) (h : Rotated a p l r) (h0 : 0 ≤ l)
    (hn : r < n) :
    ∃ b, searchRepeated n a target l r = some b ∧ (b = true ↔ OccursIn a target l r) := by
  by_cases hlr : l ≤ r
  · obtain ⟨hmid, hend, hbegin⟩ := turn_reads h0 hn hlr (a := a)
    have hsum : fitInt (l + r) = some (l + r) := fit_int_eq (by omega) (by omega)
    rw [searchRepeated, if_pos hlr]
    simp only [hsum, hmid, hend, hbegin, Option.bind_eq_bind, Option.bind_some]
    by_cases heq : a ((l + r) / 2) = target
    · rw [if_pos heq]
      exact ⟨true, rfl, iff_of_true rfl ⟨(l + r) / 2, by omega, by omega, heq⟩⟩
    · rw [if_neg heq]
      by_cases hlt : a ((l + r) / 2) < a r
      · rw [if_pos hlt]
        by_cases ht : a ((l + r) / 2) < target ∧ a r ≥ target
        · rw [if_pos ht, occurs_behind_sorted h (by omega) (by omega) hlt ht]
          exact search_repeated_finds hint (h.mono (by omega) (le_refl r)) (by omega) hn
        · rw [if_neg ht, occurs_before_sorted h (by omega) (by omega) heq hlt ht]
          exact search_repeated_finds hint (h.mono (le_refl l) (by omega)) h0 (by omega)
      · rw [if_neg hlt]
        by_cases hgt : a ((l + r) / 2) > a r
        · rw [if_pos hgt]
          by_cases ht : a l ≤ target ∧ a ((l + r) / 2) > target
          · rw [if_pos ht, occurs_before_rotation h (by omega) (by omega) ht]
            exact search_repeated_finds hint (h.mono (le_refl l) (by omega)) h0 (by omega)
          · rw [if_neg ht, occurs_behind_rotation h (by omega) (by omega) heq hgt ht]
            exact search_repeated_finds hint (h.mono (by omega) (le_refl r)) (by omega) hn
        · have hsame : a ((l + r) / 2) = a r := by omega
          rw [if_neg hgt, occurs_before_end heq hsame]
          exact search_repeated_finds hint (h.mono (le_refl l) (by omega)) h0 (by omega)
  · rw [searchRepeated, if_neg hlr]
    exact ⟨false, rfl, iff_of_false Bool.false_ne_true fun ⟨i, hi, hir, _⟩ => by omega⟩
termination_by (r + 1 - l).toNat

/-- Without repetitions the end is the same as the middle only if it is the middle. -/
theorem search_finds {l r : ℤ} (h : Rotated a p l r)
    (hd : ∀ i j, l ≤ i → i < j → j ≤ r → a i ≠ a j)
    (h0 : 0 ≤ l) (hn : r < n) : ∃ i, search n a target l r = some i ∧
      (OccursIn a target l r → l ≤ i ∧ i ≤ r ∧ a i = target) ∧
      (¬ OccursIn a target l r → i = -1) := by
  by_cases hlr : l ≤ r
  · obtain ⟨hmid, hend, hbegin⟩ := turn_reads h0 hn hlr (a := a)
    have hsame : (l + r) / 2 = l + (r - l) / 2 := by omega
    rw [hsame] at hmid
    rw [search, if_pos hlr]
    simp only [hmid, hend, hbegin, Option.bind_eq_bind, Option.bind_some]
    by_cases heq : a (l + (r - l) / 2) = target
    · rw [if_pos heq]
      have hfound : OccursIn a target l r := ⟨l + (r - l) / 2, by omega, by omega, heq⟩
      exact ⟨_, rfl, fun _ => ⟨by omega, by omega, heq⟩, fun hno => absurd hfound hno⟩
    · rw [if_neg heq]
      have hsub : ∀ l' r', l ≤ l' → r' ≤ r → ∀ i j, l' ≤ i → i < j → j ≤ r' → a i ≠ a j :=
        fun l' r' hl' hr' i j hi hij hj => hd i j (hl'.trans hi) hij (hj.trans hr')
      -- a result for a part is one for the whole when no occurrence of the target is lost
      have hpart : ∀ l' r', l ≤ l' → r' ≤ r →
          (OccursIn a target l r ↔ OccursIn a target l' r') →
          (∃ i, search n a target l' r' = some i ∧
            (OccursIn a target l' r' → l' ≤ i ∧ i ≤ r' ∧ a i = target) ∧
            (¬ OccursIn a target l' r' → i = -1)) →
          ∃ i, search n a target l' r' = some i ∧
            (OccursIn a target l r → l ≤ i ∧ i ≤ r ∧ a i = target) ∧
            (¬ OccursIn a target l r → i = -1) := by
        intro l' r' hl' hr' hiff ⟨i, hi, hfound, hnone⟩
        rw [hiff]
        refine ⟨i, hi, fun ho => ?_, hnone⟩
        obtain ⟨hil, hir, ha⟩ := hfound ho
        exact ⟨hl'.trans hil, hir.trans hr', ha⟩
      by_cases hlt : a (l + (r - l) / 2) < a r
      · rw [if_pos hlt]
        by_cases ht : a (l + (r - l) / 2) < target ∧ a r ≥ target
        · rw [if_pos ht]
          apply hpart _ _ (by omega) (le_refl r)
            (occurs_behind_sorted h (by omega) (by omega) hlt ht)
          exact search_finds (h.mono (by omega) (le_refl r)) (hsub _ _ (by omega) (le_refl r))
            (by omega) hn
        · rw [if_neg ht]
          apply hpart _ _ (le_refl l) (by omega)
            (occurs_before_sorted h (by omega) (by omega) heq hlt ht)
          exact search_finds (h.mono (le_refl l) (by omega)) (hsub _ _ (le_refl l) (by omega)) h0
            (by omega)
      · rw [if_neg hlt]
        by_cases hgt : a (l + (r - l) / 2) > a r
        · by_cases ht : a l ≤ target ∧ a (l + (r - l) / 2) > target
          · rw [if_pos ht]
            apply hpart _ _ (le_refl l) (by omega)
              (occurs_before_rotation h (by omega) (by omega) ht)
            exact search_finds (h.mono (le_refl l) (by omega)) (hsub _ _ (le_refl l) (by omega)) h0
              (by omega)
          · rw [if_neg ht]
            apply hpart _ _ (by omega) (le_refl r)
              (occurs_behind_rotation h (by omega) (by omega) heq hgt ht)
            exact search_finds (h.mono (by omega) (le_refl r)) (hsub _ _ (by omega) (le_refl r))
              (by omega) hn
        · -- the middle is the end, so that the range is this one element
          have hone : l = r := by
            by_contra hcon
            exact hd (l + (r - l) / 2) r (by omega) (by omega) (le_refl r) (by omega)
          have hmid' : l + (r - l) / 2 = l := by omega
          rw [hmid'] at heq ⊢
          rw [if_neg fun ht : a l ≤ target ∧ a l > target => by omega, search, if_neg (by omega)]
          have hno : ¬ OccursIn a target l r := fun ⟨i, hi, hir, ha⟩ => by
            obtain rfl : i = l := by omega
            exact heq ha
          exact ⟨-1, rfl, fun ho => absurd ho hno, fun _ => rfl⟩
  · rw [search, if_neg hlr]
    exact ⟨-1, rfl, fun ⟨i, hi, hir, _⟩ => by omega, fun _ => rfl⟩
termination_by (r + 1 - l).toNat

/-- In a rotated array of up to 2 ^ 30 elements the second search tells whether the target is
there. The first one finds it, in an array of less than 2 ^ 31 elements none of which occurs
twice. -/
theorem rotated_search_finds (h : Rotated a p 0 (n - 1)) :
    (0 ≤ n → n ≤ 2 ^ 30 →
      ∃ b, searchArray n a target = some b ∧ (b = true ↔ OccursIn a target 0 (n - 1))) ∧
    (0 ≤ n → n < 2 ^ 31 → (∀ i j, 0 ≤ i → i < j → j ≤ n - 1 → a i ≠ a j) →
      ∃ i, searchNums n a target = some i ∧
        (OccursIn a target 0 (n - 1) → 0 ≤ i ∧ i ≤ n - 1 ∧ a i = target) ∧
        (¬ OccursIn a target 0 (n - 1) → i = -1)) := by
  refine ⟨fun _ hint => ?_, fun h0 hint hd => ?_⟩
  · unfold searchArray
    by_cases hn : n = 0
    · rw [if_pos hn]
      exact ⟨false, rfl, iff_of_false Bool.false_ne_true fun ⟨i, hi, hir, _⟩ => by omega⟩
    · rw [if_neg hn]
      exact search_repeated_finds hint h (le_refl 0) (by omega)
  · have hright : Int.bmod (n - 1) (2 ^ 32) = n - 1 := Int.bmod_eq_of_le (by omega) (by omega)
    rw [searchNums, hright]
    exact search_finds h hd (le_refl 0) (by omega)

def sampleArray (i : ℤ) : ℤ := if i < 2 then i + 3 else i - 1

theorem rotated_search_finds_sample : (∃ b, searchArray 4 sampleArray 1 = some b ∧
    (b = true ↔ OccursIn sampleArray 1 0 3)) ∧ ∃ i, searchNums 4 sampleArray 1 = some i ∧
    (OccursIn sampleArray 1 0 3 → 0 ≤ i ∧ i ≤ 3 ∧ sampleArray i = 1) := by
  have h : Rotated sampleArray 2 0 3 := by
    refine ⟨fun i j hi hij hj hp => ?_, fun i j hi hip hpj hj => ?_⟩
    · rcases hp with hp | hp
      · rw [sampleArray, sampleArray, if_pos (by omega), if_pos hp]
        omega
      · rw [sampleArray, sampleArray, if_neg (by omega), if_neg (by omega)]
        omega
    · rw [sampleArray, sampleArray, if_neg (by omega), if_pos hip]
      omega
  obtain ⟨hrepeated, hdistinct⟩ := @rotated_search_finds 4 2 1 sampleArray h
  refine ⟨hrepeated (by decide) (by decide), ?_⟩
  obtain ⟨i, hi, hfound, -⟩ := hdistinct (by decide) (by decide) fun i j hi hij hj => by
    rw [sampleArray, sampleArray]
    split <;> split <;> omega
  exact ⟨i, hi, hfound⟩

end Search

end RotatedSearch
