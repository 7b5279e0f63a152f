import MakeDownFile.ArrayRanges

/-! # Merge sort

The two sorted halves are merged into a second array and copied back. Indices are integers: int
holds those of an array of less than 2 ^ 31 elements, and the length of every range of it. -/
namespace MergeSort

open ArrayRanges

/-- `tmp[k++] = x`, in an array of `size` elements. -/
def append (size : ℤ) (tmp : List ℤ) (x : ℤ) : Option (List ℤ) :=
  if tmp.length < size then some (tmp ++ [x]) else none

/-- Takes from both halves as long as neither is used up. -/
def mergeLoop (n : ℤ) (arr : ℤ → ℤ) (size m h : ℤ) :
    ℕ → ℤ → ℤ → List ℤ → Option (ℤ × ℤ × List ℤ)
  | 0, _, _, _ => none
  | fuel + 1, i, j, tmp =>
    if i ≤ m ∧ j ≤ h then do
      let x ← load n arr i
      let y ← load n arr j
      if x ≤ y then
        let tmp ← append size tmp x
        mergeLoop n arr size m h fuel (i + 1) j tmp
      else
        let tmp ← append size tmp y
        mergeLoop n arr size m h fuel i (j + 1) tmp
    else some (i, j, tmp)

/-- `while (i <= m) tmp[k++] = arr[i++]`. -/
def appendRest (n : ℤ) (arr : ℤ → ℤ) (size i m : ℤ) (tmp : List ℤ) : Option (List ℤ) :=
  forUp i m (fun i tmp => do
    let x ← load n arr i
    append size tmp x) tmp

def copyBack (n : ℤ) (tmp : List ℤ) (l h : ℤ) (arr : ℤ → ℤ) : Option (ℤ → ℤ) :=
  forUp l h (fun i arr => do
    let x ← tmp[(i - l).toNat]?
    store n arr i x) arr

def merge (n : ℤ) (fuel : ℕ) (arr : ℤ → ℤ) (l m h : ℤ) : Option (ℤ → ℤ) := do
  let (i, j, tmp) ← mergeLoop n arr (h - l + 1) m h fuel l (m + 1) []
  let tmp ← appendRest n arr (h - l + 1) i m tmp
  let tmp ← appendRest n arr (h - l + 1) j h tmp
  copyBack n tmp l h arr

/-- Only a range of one element ends the recursion. -/
def mergeSort (n : ℤ) : ℕ → (ℤ → ℤ) → ℤ → ℤ → Option (ℤ → ℤ)
  | 0, _, _, _ => none
  | fuel + 1, arr, l, h =>
    if l = h then some arr
    else do
      let m := l + (h - l).tdiv 2
      let arr ← mergeSort n fuel arr l m
      let arr ← mergeSort n fuel arr (m + 1) h
      merge n (fuel + 1) arr l m h

section Merge

variable {n l m h i j size : ℤ} {a b : ℤ → ℤ} {tmp : List ℤ} {fuel : ℕ}

/-- What is in the second array when the halves have been taken up to `i` and `j`. -/
structure MergeInv (a : ℤ → ℤ) (l m h i j : ℤ) (tmp : List ℤ) : Prop where
  left : l ≤ i ∧ i ≤ m + 1
  right : m + 1 ≤ j ∧ j ≤ h + 1
  length : (tmp.length : ℤ) = i - l + (j - (m + 1))
  sorted : tmp.Pairwise (· ≤ ·)
  perm : tmp.Perm (cells a l (i - 1) ++ cells a (m + 1) (j - 1))
  belowLeft : ∀ x ∈ tmp, ∀ k, i ≤ k → k ≤ m → x ≤ a k
  belowRight : ∀ x ∈ tmp, ∀ k, j ≤ k → k ≤ h → x ≤ a k

theorem pairwise_concat {xs : List ℤ} {y : ℤ} (h : xs.Pairwise (· ≤ ·)) (hy : ∀ x ∈ xs, x ≤ y) :
    (xs ++ [y]).Pairwise (· ≤ ·) := by
  refine List.pairwise_append.mpr ⟨h, List.pairwise_singleton _ y, fun x hx z hz => ?_⟩
  rw [List.mem_singleton.mp hz]
  exact hy x hx

theorem cells_concat (hle : l ≤ i) : cells a l i = cells a l (i - 1) ++ [a i] := by
  rw [cells, up_from_concat hle, List.map_append]
  rfl

theorem merge_inv_left (hinv : MergeInv a l m h i j tmp) (hsorted : SortedOn a l m) (him : i ≤ m)
    (hle : ∀ k, j ≤ k → k ≤ h → a i ≤ a k) : MergeInv a l m h (i + 1) j (tmp ++ [a i]) := by
  obtain ⟨hli, -⟩ := hinv.left
  refine ⟨by omega, hinv.right, ?_, pairwise_concat hinv.sorted fun x hx =>
    hinv.belowLeft x hx i (le_refl i) him, ?_, fun x hx k hk hkm => ?_, fun x hx k hk hkh => ?_⟩
  · rw [List.length_append, List.length_singleton, Nat.cast_add, hinv.length, Nat.cast_one]
    omega
  · rw [Int.add_sub_cancel, cells_concat hli, List.append_assoc]
    refine (hinv.perm.append_right [a i]).trans ?_
    rw [List.append_assoc]
    exact List.perm_append_comm.append_left _
  · rcases List.mem_append.mp hx with hx | hx
    · exact hinv.belowLeft x hx k (by omega) hkm
    · rw [List.mem_singleton.mp hx]
      exact hsorted i k hli (by omega) hkm
  · rcases List.mem_append.mp hx with hx | hx
    · exact hinv.belowRight x hx k hk hkh
    · rw [List.mem_singleton.mp hx]
      exact hle k hk hkh

theorem merge_inv_right (hinv : MergeInv a l m h i j tmp) (hsorted : SortedOn a (m + 1) h)
    (hjh : j ≤ h) (hle : ∀ k, i ≤ k → k ≤ m → a j ≤ a k) :
    MergeInv a l m h i (j + 1) (tmp ++ [a j]) := by
  obtain ⟨hmj, -⟩ := hinv.right
  refine ⟨hinv.left, by omega, ?_, pairwise_concat hinv.sorted fun x hx =>
    hinv.belowRight x hx j (le_refl j) hjh, ?_, fun x hx k hk hkm => ?_, fun x hx k hk hkh => ?_⟩
  · rw [List.length_append, List.length_singleton, Nat.cast_add, hinv.length, Nat.cast_one]
    omega
  · rw [Int.add_sub_cancel, cells_concat hmj, ← List.append_assoc]
    exact hinv.perm.append_right [a j]
  · rcases List.mem_append.mp hx with hx | hx
    · exact hinv.belowLeft x hx k hk hkm
    · rw [List.mem_singleton.mp hx]
      exact hle k hk hkm
  · rcases List.mem_append.mp hx with hx | hx
    · exact hinv.belowRight x hx k (by omega) hkh
    · rw [List.mem_singleton.mp hx]
      exact hsorted j k hmj (by omega) hkh

theorem append_eq (hinv : MergeInv a l m h i j tmp) (hmore : i ≤ m ∨ j ≤ h) (x : ℤ) :
    append (h - l + 1) tmp x = some (tmp ++ [x]) := by
  obtain ⟨-, him⟩ := hinv.left
  obtain ⟨-, hjh⟩ := hinv.right
  have := hinv.length
  exact if_pos (by omega)

theorem merge_loop_merges (h0 : 0 ≤ l) (hmn : m < n) (hhn : h < n)
    (hleft : SortedOn a l m) (hright : SortedOn a (m + 1) h) (hinv : MergeInv a l m h i j tmp)
    (hfuel : (m + 1 - i) + (h + 1 - j) < fuel) :
    ∃ i' j' tmp', mergeLoop n a (h - l + 1) m h fuel i j tmp = some (i', j', tmp') ∧
      MergeInv a l m h i' j' tmp' ∧ (m < i' ∨ h < j') := by
  induction fuel generalizing i j tmp with
  | zero =>
    have := hinv.left
    have := hinv.right
    omega
  | succ fuel ih =>
    obtain ⟨hli, him⟩ := hinv.left
    obtain ⟨hmj, hjh⟩ := hinv.right
    rw [mergeLoop]
    by_cases hboth : i ≤ m ∧ j ≤ h
    · rw [if_pos hboth, load_eq (by omega) (by omega), load_eq (by omega) (by omega)]
      simp only [Option.bind_eq_bind, Option.bind_some, append_eq hinv (Or.inl hboth.1)]
      by_cases hle : a i ≤ a j
      · rw [if_pos hle]
        refine ih (merge_inv_left hinv hleft hboth.1 fun k hk hkh => ?_) (by omega)
        exact le_trans hle (hright j k hmj hk hkh)
      · rw [if_neg hle]
        refine ih (merge_inv_right hinv hright hboth.2 fun k hk hkm => ?_) (by omega)
        exact le_trans (le_of_not_ge hle) (hleft i k hli hk hkm)
    · rw [if_neg hboth]
      exact ⟨i, j, tmp, rfl, hinv, by omega⟩

/-- What is left of the first half is taken when the second is used up or will be taken later. -/
theorem append_left_rest (h0 : 0 ≤ l) (hmn : m < n) (hleft : SortedOn a l m)
    (hinv : MergeInv a l m h i j tmp) (hused : m < i ∨ h < j) :
    ∃ tmp', appendRest n a (h - l + 1) i m tmp = some tmp' ∧ MergeInv a l m h (m + 1) j tmp' := by
  obtain ⟨hli, him⟩ := hinv.left
  refine for_up_rule (P := fun i tmp => MergeInv a l m h i j tmp) him hinv fun k t hik hkm ht => ?_
  rw [load_eq (by omega) (by omega)]
  exact ⟨_, append_eq ht (Or.inl hkm) _, merge_inv_left ht hleft hkm fun x hx hxh => by omega⟩

theorem append_right_rest (h0 : 0 ≤ m + 1) (hhn : h < n) (hright : SortedOn a (m + 1) h)
    (hinv : MergeInv a l m h (m + 1) j tmp) :
    ∃ tmp', appendRest n a (h - l + 1) j h tmp = some tmp' ∧
      MergeInv a l m h (m + 1) (h + 1) tmp' := by
  obtain ⟨hmj, hjh⟩ := hinv.right
  refine for_up_rule (P := fun j tmp => MergeInv a l m h (m + 1) j tmp) hjh hinv
    fun k t hjk hkh ht => ?_
  rw [load_eq (by omega) (by omega)]
  exact ⟨_, append_eq ht (Or.inr hkh) _, merge_inv_right ht hright hkh fun x hx hxm => by omega⟩

theorem copy_back_copies (h0 : 0 ≤ l) (hn : h < n) (hle : l ≤ h + 1)
    (hlen : (tmp.length : ℤ) = h - l + 1) :
    ∃ b, copyBack n tmp l h a = some b ∧ (∀ k, k < l ∨ h < k → b k = a k) ∧ cells b l h = tmp := by
  obtain ⟨b, hb, hout, hin⟩ := for_up_rule (l := l) (h := h) (s := a)
    (f := fun i arr => do
      let x ← tmp[(i - l).toNat]?
      store n arr i x)
    (P := fun i b => (∀ k, k < l ∨ i ≤ k → b k = a k) ∧
      ∀ k, l ≤ k → k < i → tmp[(k - l).toNat]? = some (b k)) hle
    ⟨fun _ _ => rfl, fun k hk hkl => by omega⟩
    (fun i s hli hih ⟨hout, hin⟩ => by
      have hi : (i - l).toNat < tmp.length := by omega
      rw [List.getElem?_eq_getElem hi, Option.bind_eq_bind, Option.bind_some,
        store_eq (by omega) (by omega)]
      refine ⟨_, rfl, fun k hk => ?_, fun k hk hki => ?_⟩
      · rw [Function.update_of_ne (by omega)]
        exact hout k (by omega)
      · by_cases he : k = i
        · subst he
          rw [Function.update_self]
          exact List.getElem?_eq_getElem hi
        · rw [Function.update_of_ne he]
          exact hin k hk (by omega))
  refine ⟨b, hb, fun k hk => hout k (by omega), List.ext_getElem? fun k => ?_⟩
  rw [cells, upFrom, List.map_map, List.getElem?_map]
  by_cases hk : k < tmp.length
  · rw [List.getElem?_range (by omega)]
    have := hin (l + k) (by omega) (by omega)
    rw [add_sub_cancel_left, Int.toNat_natCast] at this
    rw [this]
    rfl
  · rw [List.getElem?_eq_none (by rw [List.length_range]; omega), List.getElem?_eq_none (by omega)]
    rfl

theorem sorted_of_pairwise (hsorted : (cells b l h).Pairwise (· ≤ ·)) : SortedOn b l h := by
  rw [cells, List.pairwise_map, upFrom, List.pairwise_map] at hsorted
  intro i j hi hij hj
  by_cases he : i = j
  · rw [he]
  · have hlt := List.pairwise_iff_getElem.mp hsorted (i - l).toNat (j - l).toNat
      (by rw [List.length_range]; omega) (by rw [List.length_range]; omega) (by omega)
    have hi' : l + (((i - l).toNat : ℕ) : ℤ) = i := by omega
    have hj' : l + (((j - l).toNat : ℕ) : ℤ) = j := by omega
    rwa [List.getElem_range, List.getElem_range, hi', hj'] at hlt

theorem merge_sorts (h0 : 0 ≤ l) (hn : h < n) (hlm : l ≤ m + 1) (hmh : m ≤ h)
    (hleft : SortedOn a l m) (hright : SortedOn a (m + 1) h) (hfuel : h - l + 1 < fuel) :
    ∃ b, merge n fuel a l m h = some b ∧ SortedOn b l h ∧ Rearranged a b l h := by
  have hstart : MergeInv a l m h l (m + 1) [] := by
    refine ⟨by omega, by omega, ?_, List.Pairwise.nil, ?_, nofun, nofun⟩
    · rw [List.length_nil, Int.sub_self, Int.sub_self]
      rfl
    · rw [cells, cells, up_from_nil (by omega), up_from_nil (by omega)]
      exact List.Perm.refl _
  have henough : m + 1 - l + (h + 1 - (m + 1)) < (fuel : ℤ) := by omega
  obtain ⟨i, j, tmp₁, h₁, hinv₁, hused⟩ := merge_loop_merges (n := n) h0 (by omega) hn
    hleft hright hstart henough
  obtain ⟨tmp₂, h₂, hinv₂⟩ := append_left_rest (n := n) h0 (by omega) hleft hinv₁ hused
  obtain ⟨tmp₃, h₃, hinv₃⟩ := append_right_rest (n := n) (by omega) hn hright hinv₂
  have hlength : (tmp₃.length : ℤ) = h - l + 1 := by
    have := hinv₃.length
    omega
  obtain ⟨b, hb, hout, hcells⟩ := copy_back_copies (n := n) (a := a) h0 hn (by omega) hlength
  have hperm := hinv₃.perm
  rw [Int.add_sub_cancel, Int.add_sub_cancel, ← cells_append hlm hmh] at hperm
  refine ⟨b, ?_, sorted_of_pairwise (hcells ▸ hinv₃.sorted), hout, hcells ▸ hperm⟩
  simp only [merge, h₁, h₂, h₃, hb, Option.bind_eq_bind, Option.bind_some]

end Merge

section MergeSort

variable {n l h : ℤ} {a : ℤ → ℤ} {fuel : ℕ}

theorem merge_sort_range (h0 : 0 ≤ l) (hn : h < n) (hle : l ≤ h) (hfuel : h - l + 1 < fuel) :
    ∃ b, mergeSort n fuel a l h = some b ∧ SortedOn b l h ∧ Rearranged a b l h := by
  induction fuel generalizing a l h with
  | zero => omega
  | succ fuel ih =>
    rw [mergeSort]
    by_cases hone : l = h
    · rw [if_pos hone]
      exact ⟨a, rfl, sorted_short (le_of_eq hone.symm), rearranged_refl a l h⟩
    · have hhalf : (h - l).tdiv 2 = (h - l) / 2 := Int.tdiv_eq_ediv_of_nonneg (by omega)
      rw [if_neg hone, hhalf]
      obtain ⟨m, hm⟩ : ∃ m, m = l + (h - l) / 2 := ⟨_, rfl⟩
      rw [← hm]
      obtain ⟨b, hb, hsortedb, hab⟩ := ih (a := a) (l := l) (h := m) h0 (by omega) (by omega)
        (by omega)
      obtain ⟨c, hc, hsortedc, hbc⟩ := ih (a := b) (l := m + 1) (h := h) (by omega) hn (by omega)
        (by omega)
      have hsortedl : SortedOn c l m :=
        sorted_congr (fun i _ hi => hbc.outside i (by omega)) hsortedb
      obtain ⟨d, hd, hsorted, hcd⟩ := merge_sorts (n := n) (m := m) h0 hn
        (by omega) (by omega) hsortedl hsortedc hfuel
      simp only [hb, hc, Option.bind_eq_bind, Option.bind_some]
      exact ⟨d, hd, hsorted, ((hab.mono (le_refl l) (by omega)).trans
        (hbc.mono (by omega) (le_refl h))).trans hcd⟩

theorem merge_sort_empty (hlt : h < l) : mergeSort n fuel a l h = none := by
  induction fuel generalizing a l h with
  | zero => rfl
  | succ fuel ih =>
    rw [mergeSort, if_neg (by omega)]
    by_cases hnext : h = l - 1
    · -- the first half is the one element at `l`, the second is empty again
      have hhalf : l + (h - l).tdiv 2 = l := by
        have hone : l - 1 - l = -1 := by omega
        have hzero : (-1 : ℤ).tdiv 2 = 0 := rfl
        rw [hnext, hone, hzero, add_zero]
      simp only [hhalf, ih (l := l + 1) (h := h) (by omega)]
      cases mergeSort n fuel a l l <;> rfl
    · have hhalf : l + (h - l).tdiv 2 < l := by
        have : (h - l).tdiv 2 = -((l - h) / 2) := by
          rw [← Int.neg_sub, Int.neg_tdiv, Int.tdiv_eq_ediv_of_nonneg (by omega)]
        omega
      simp only [ih hhalf]
      rfl

/-- merge_sort returns exactly for ranges that are not empty, with the range sorted. -/
theorem merge_sort_sorts_iff (h0 : 0 ≤ l) (hn : h < n) :
    ((∃ fuel b, mergeSort n fuel a l h = some b) ↔ l ≤ h) ∧
      ∀ fuel : ℕ, l ≤ h → h - l + 1 < fuel →
        ∃ b, mergeSort n fuel a l h = some b ∧ SortedOn b l h ∧ Rearranged a b l h := by
  refine ⟨⟨?_, fun hle => ?_⟩, fun fuel hle hfuel => merge_sort_range h0 hn hle hfuel⟩
  · rintro ⟨fuel, b, hb⟩
    by_contra hlt
    rw [merge_sort_empty (by omega)] at hb
    cases hb
  · have henough : h - l + 1 < ((h - l + 2).toNat : ℤ) := by omega
    obtain ⟨b, hb, -⟩ := merge_sort_range (a := a) h0 hn hle henough
    exact ⟨_, b, hb⟩

theorem merge_sort_sorts_iff_sample :
    (∃ b, mergeSort 4 5 (fun i => 7 - i) 1 3 = some b ∧ SortedOn b 1 3) ∧
      ¬ ∃ fuel b, mergeSort 0 fuel (fun i => i) 0 (-1) = some b := by
  constructor
  · obtain ⟨b, hb, hsorted, -⟩ := (merge_sort_sorts_iff (n := 4) (l := 1) (h := 3)
      (a := fun i => 7 - i) (by decide) (by decide)).2 5 (by decide) (by decide)
    exact ⟨b, hb, hsorted⟩
  · exact mt (merge_sort_sorts_iff (by decide) (by decide)).1.mp (by decide)

end MergeSort

end MergeSort
