import MakeDownFile.ArrayRanges

/-! # Quick sort

partition moves its two indices towards each other, and returns where the lower one has got to.
Indices are integers: they only go up and down by one, and not further than one beyond the range,
so that int does not overflow in an array of less than 2 ^ 31 elements. -/
namespace QuickSort

open ArrayRanges

/-- `while (arry[l] < pivot) ++l`. -/
def scanUp (n : ℤ) (arry : ℤ → ℤ) (pivot : ℤ) : ℕ → ℤ → Option ℤ
  | 0, _ => none
  | fuel + 1, l => do
    let x ← load n arry l
    if x < pivot then scanUp n arry pivot fuel (l + 1) else some l

/-- `while (arry[h] > pivot) --h`. -/
def scanDown (n : ℤ) (arry : ℤ → ℤ) (pivot : ℤ) : ℕ → ℤ → Option ℤ
  | 0, _ => none
  | fuel + 1, h => do
    let x ← load n arry h
    if x > pivot then scanDown n arry pivot fuel (h - 1) else some h

def partitionLoop (n pivot : ℤ) (scans : ℕ) : ℕ → (ℤ → ℤ) → ℤ → ℤ → Option ((ℤ → ℤ) × ℤ)
  | 0, _, _, _ => none
  | fuel + 1, arry, l, h => do
    let l ← scanUp n arry pivot scans l
    let h ← scanDown n arry pivot scans h
    if ¬ l < h then some (arry, l)
    else
      let arry ← exchange n arry l h
      partitionLoop n pivot scans fuel arry (l + 1) (h - 1)

def partition (n : ℤ) (fuel : ℕ) (arry : ℤ → ℤ) (l h : ℤ) : Option ((ℤ → ℤ) × ℤ) := do
  let pivot ← load n arry h
  partitionLoop n pivot fuel fuel arry l h

/-- The upper part starts with the index that partition returns. -/
def quickSort (n : ℤ) : ℕ → (ℤ → ℤ) → ℤ → ℤ → Option (ℤ → ℤ)
  | 0, _, _, _ => none
  | fuel + 1, arr, l, h =>
    if l ≥ h then some arr
    else do
      let (arr, m) ← partition n (fuel + 1) arr l h
      let arr ← quickSort n fuel arr l (m - 1)
      quickSort n fuel arr m h

section Scans

variable {n pivot l h r : ℤ} {a : ℤ → ℤ} {fuel : ℕ}

theorem scan_up_stops (h0 : 0 ≤ l) (hn : r < n) (hlr : l ≤ r) (hr : pivot ≤ a r)
    (hfuel : r - l < fuel) : ∃ l', scanUp n a pivot fuel l = some l' ∧ l ≤ l' ∧ l' ≤ r ∧
      (∀ i, l ≤ i → i < l' → a i < pivot) ∧ pivot ≤ a l' := by
  induction fuel generalizing l with
  | zero => omega
  | succ fuel ih =>
    rw [scanUp, load_eq h0 (by omega), Option.bind_eq_bind, Option.bind_some]
    by_cases hlt : a l < pivot
    · have hne : l ≠ r := by
        rintro rfl
        omega
      obtain ⟨l', hl', hle, hler, hbelow, hstop⟩ := ih (l := l + 1) (by omega) (by omega) (by omega)
      rw [if_pos hlt]
      refine ⟨l', hl', by omega, hler, fun i hi hil => ?_, hstop⟩
      by_cases hil' : i = l
      · rwa [hil']
      · exact hbelow i (by omega) hil
    · rw [if_neg hlt]
      exact ⟨l, rfl, le_refl l, hlr, fun i hi hil => by omega, not_lt.mp hlt⟩

theorem scan_down_stops (h0 : 0 ≤ r) (hn : h < n) (hrh : r ≤ h) (hr : a r ≤ pivot)
    (hfuel : h - r < fuel) : ∃ h', scanDown n a pivot fuel h = some h' ∧ r ≤ h' ∧ h' ≤ h ∧
      (∀ i, h' < i → i ≤ h → pivot < a i) ∧ a h' ≤ pivot := by
  induction fuel generalizing h with
  | zero => omega
  | succ fuel ih =>
    rw [scanDown, load_eq (by omega) hn, Option.bind_eq_bind, Option.bind_some]
    by_cases hgt : a h > pivot
    · have hne : r ≠ h := by
        rintro rfl
        omega
      obtain ⟨h', hh', hle, hler, habove, hstop⟩ := ih (h := h - 1) (by omega) (by omega) (by omega)
      rw [if_pos hgt]
      refine ⟨h', hh', hle, by omega, fun i hi hih => ?_, hstop⟩
      by_cases hih' : i = h
      · rwa [hih']
      · exact habove i hi (by omega)
    · rw [if_neg hgt]
      exact ⟨h, rfl, hrh, le_refl h, fun i hi hih => by omega, not_lt.mp hgt⟩

end Scans

section Partition

/-- Between two turns of partition on the range from `lo` to `hi`. There is an element on either
side that stops a scan, and the lower index has moved unless the pivot is still where it was. -/
structure PartitionInv (pivot lo hi : ℤ) (a : ℤ → ℤ) (l h : ℤ) : Prop where
  lower : lo ≤ l
  upper : h ≤ hi
  cross : l ≤ h + 1
  below : ∀ i, lo ≤ i → i < l → a i ≤ pivot
  above : ∀ i, h < i → i ≤ hi → pivot ≤ a i
  stopUp : ∃ r, l ≤ r ∧ r ≤ hi ∧ pivot ≤ a r
  stopDown : ∃ r, lo ≤ r ∧ r ≤ h ∧ a r ≤ pivot
  moved : lo < l ∨ h = hi ∧ a hi = pivot

structure Parted (pivot lo hi : ℤ) (a b : ℤ → ℤ) (m : ℤ) : Prop where
  rearranged : Rearranged a b lo hi
  lower : lo < m
  upper : m ≤ hi
  left : ∀ i, lo ≤ i → i < m → b i ≤ pivot
  right : ∀ i, m ≤ i → i ≤ hi → pivot ≤ b i

variable {n pivot lo hi l h : ℤ} {a : ℤ → ℤ} {scans fuel : ℕ}

/-- The two elements that stopped the scans change places. -/
theorem partition_inv_exchange {l' h' : ℤ} (hinv : PartitionInv pivot lo hi a l h)
    (hl : l ≤ l') (hh : h' ≤ h) (hlt : l' < h') (hbelow : ∀ i, l ≤ i → i < l' → a i < pivot)
    (habove : ∀ i, h' < i → i ≤ h → pivot < a i) (hal : pivot ≤ a l') (hah : a h' ≤ pivot) :
    PartitionInv pivot lo hi (a ∘ Equiv.swap l' h') (l' + 1) (h' - 1) := by
  have hlower := hinv.lower
  have hupper := hinv.upper
  have hleft : (a ∘ Equiv.swap l' h') l' = a h' := congrArg a (Equiv.swap_apply_left l' h')
  have hright : (a ∘ Equiv.swap l' h') h' = a l' := congrArg a (Equiv.swap_apply_right l' h')
  have hother : ∀ i, i ≠ l' → i ≠ h' → (a ∘ Equiv.swap l' h') i = a i := fun i h₁ h₂ =>
    congrArg a (Equiv.swap_apply_of_ne_of_ne h₁ h₂)
  refine ⟨by omega, by omega, by omega, fun i hi hil => ?_, fun i hi hih => ?_, ?_, ?_,
    Or.inl (by omega)⟩
  · by_cases hi' : i = l'
    · rwa [hi', hleft]
    · rw [hother i hi' (by omega)]
      by_cases hil' : i < l
      · exact hinv.below i hi hil'
      · exact le_of_lt (hbelow i (by omega) (by omega))
  · by_cases hi' : i = h'
    · rwa [hi', hright]
    · rw [hother i (by omega) hi']
      by_cases hih' : h < i
      · exact hinv.above i hih' hih
      · exact le_of_lt (habove i (by omega) (by omega))
  · exact ⟨h', by omega, by omega, by rwa [hright]⟩
  · exact ⟨l', by omega, by omega, by rwa [hleft]⟩

theorem partition_loop_parts (h0 : 0 ≤ lo) (hn : hi < n) (hlt : lo < hi)
    (hscans : hi - lo < scans) (hinv : PartitionInv pivot lo hi a l h) (hfuel : h - l + 1 < fuel) :
    ∃ b m, partitionLoop n pivot scans fuel a l h = some (b, m) ∧ Parted pivot lo hi a b m := by
  induction fuel generalizing a l h with
  | zero =>
    have := hinv.cross
    omega
  | succ fuel ih =>
    have hlower := hinv.lower
    have hupper := hinv.upper
    obtain ⟨r, hlr, hrhi, hr⟩ := hinv.stopUp
    obtain ⟨q, hloq, hqh, hq⟩ := hinv.stopDown
    have hup : r - l < (scans : ℤ) := by omega
    have hdown : h - q < (scans : ℤ) := by omega
    obtain ⟨l', hl', hll', hl'r, hbelow, hal⟩ :=
      scan_up_stops (n := n) (by omega) (by omega) hlr hr hup
    obtain ⟨h', hh', hqh', hh'h, habove, hah⟩ :=
      scan_down_stops (n := n) (by omega) (by omega) hqh hq hdown
    simp only [partitionLoop, hl', hh', Option.bind_eq_bind, Option.bind_some]
    by_cases hcross : l' < h'
    · have hnext := partition_inv_exchange hinv hll' hh'h hcross hbelow habove hal hah
      obtain ⟨b, m, hrun, hparted⟩ := ih hnext (by omega)
      have hswap := rearranged_swap (a := a) (l := lo) (h := hi) (i := l') (j := h') (by omega)
        (by omega) (by omega) (by omega)
      rw [if_neg (not_not.mpr hcross), exchange_eq (by omega) (by omega) (by omega) (by omega)]
      exact ⟨b, m, hrun, hswap.trans hparted.rearranged, hparted.lower, hparted.upper, hparted.left,
        hparted.right⟩
    · rw [if_pos hcross]
      refine ⟨a, l', rfl, rearranged_refl a lo hi, ?_, by omega, fun i hi' hil => ?_,
        fun i hi' hih => ?_⟩
      · rcases hinv.moved with hmoved | ⟨rfl, hpivot⟩
        · omega
        · by_contra hle
          have := habove h (by omega) (le_refl h)
          omega
      · by_cases hil' : i < l
        · exact hinv.below i hi' hil'
        · exact le_of_lt (hbelow i (by omega) hil)
      · by_cases hil : i = l'
        · rwa [hil]
        · by_cases hih' : h < i
          · exact hinv.above i hih' hih
          · exact le_of_lt (habove i (by omega) (by omega))

theorem partition_parts (h0 : 0 ≤ lo) (hn : hi < n) (hlt : lo < hi) (hfuel : hi - lo + 1 < fuel) :
    ∃ b m, partition n fuel a lo hi = some (b, m) ∧ Parted (a hi) lo hi a b m := by
  rw [partition, load_eq (by omega) hn, Option.bind_eq_bind, Option.bind_some]
  refine partition_loop_parts h0 hn hlt (by omega) ⟨le_refl lo, le_refl hi, by omega,
    fun i hi' hil => by omega, fun i hi' hih => by omega, ⟨hi, le_of_lt hlt, le_refl hi, le_refl _⟩,
    ⟨hi, le_of_lt hlt, le_refl hi, le_refl _⟩, Or.inr ⟨rfl, rfl⟩⟩ hfuel

end Partition

section QuickSort

variable {n l h : ℤ} {a : ℤ → ℤ} {fuel : ℕ}

theorem quick_sort_range (h0 : 0 ≤ l) (hn : h < n) (hle : l ≤ h + 1) (hfuel : h - l + 1 < fuel) :
    ∃ b, quickSort n fuel a l h = some b ∧ SortedOn b l h ∧ Rearranged a b l h := by
  induction fuel generalizing a l h with
  | zero => omega
  | succ fuel ih =>
    rw [quickSort]
    by_cases hge : l ≥ h
    · rw [if_pos hge]
      exact ⟨a, rfl, sorted_short hge, rearranged_refl a l h⟩
    · rw [if_neg hge]
      obtain ⟨b, m, hparts, hparted⟩ := partition_parts (n := n) (a := a) h0 hn (by omega) hfuel
      have hlower := hparted.lower
      have hupper := hparted.upper
      obtain ⟨c, hc, hsortedc, hbc⟩ := ih (a := b) (l := l) (h := m - 1) h0 (by omega) (by omega)
        (by omega)
      obtain ⟨d, hd, hsortedd, hcd⟩ := ih (a := c) (l := m) (h := h) (by omega) hn (by omega)
        (by omega)
      simp only [hparts, hc, hd, Option.bind_eq_bind, Option.bind_some]
      refine ⟨d, rfl, ?_, (hparted.rearranged.trans (hbc.mono (le_refl l) (by omega))).trans
        (hcd.mono (le_of_lt hlower) (le_refl h))⟩
      -- the upper part has been sorted last, the lower one is as the first call has left it
      have hleft : ∀ i, l ≤ i → i ≤ m - 1 → d i ≤ a h := by
        intro i hi him
        rw [hcd.outside i (by omega)]
        exact hbc.forall (P := (· ≤ a h)) (fun j hj hjm => hparted.left j hj (by omega)) i hi him
      have hright : ∀ i, m ≤ i → i ≤ h → a h ≤ d i := by
        refine hcd.forall (P := (a h ≤ ·)) fun j hj hjh => ?_
        rw [hbc.outside j (by omega)]
        exact hparted.right j hj hjh
      refine sorted_glue (m := m) ?_ hsortedd fun i j hi him hj hjh =>
        le_trans (hleft i hi (by omega)) (hright j hj hjh)
      exact sorted_congr (fun i _ him => hcd.outside i (by omega)) hsortedc

/-- quick_sort returns with the range sorted, having loaded from and stored to nothing outside
the array, and having changed nothing outside the range. -/
theorem quick_sort_sorts (h0 : 0 ≤ l) (hn : h < n) :
    ∃ b, SortedOn b l h ∧ Rearranged a b l h ∧
      ∀ fuel : ℕ, 0 < fuel → h - l + 1 < fuel → quickSort n fuel a l h = some b := by
  by_cases hle : l ≤ h + 1
  · have henough : h - l + 1 < ((h - l + 2).toNat : ℤ) := by omega
    obtain ⟨b, hb, hsorted, hab⟩ := quick_sort_range (a := a) h0 hn hle henough
    refine ⟨b, hsorted, hab, fun fuel _ hfuel => ?_⟩
    obtain ⟨c, hc, hsortedc, hac⟩ := quick_sort_range (a := a) h0 hn hle hfuel
    rw [hc, sorted_unique hsortedc hsorted hac hab]
  · refine ⟨a, fun i j hi hij hj => by omega, rearranged_refl a l h, fun fuel hpos _ => ?_⟩
    obtain ⟨k, rfl⟩ : ∃ k, fuel = k + 1 := ⟨fuel - 1, by omega⟩
    rw [quickSort, if_pos (by omega)]

theorem quick_sort_sorts_sample : ∃ b, SortedOn b 1 3 ∧ Rearranged (fun i => 7 - i) b 1 3 ∧
    ∀ fuel : ℕ, 0 < fuel → 3 - 1 + 1 < (fuel : ℤ) →
      quickSort 4 fuel (fun i => 7 - i) 1 3 = some b :=
  quick_sort_sorts (by decide) (by decide)

end QuickSort

end QuickSort
