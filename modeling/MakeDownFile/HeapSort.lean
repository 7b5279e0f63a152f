import MakeDownFile.ArrayRanges
import Mathlib.Tactic.Linarith

/-! # Heap sort

percDown moves an element down from `k` without storing it on the way: what an index holds in
between is only right with the element in the hole. -/
namespace HeapSort

open ArrayRanges

/-- `(k - l) * 2 + l + 1`. -/
def firstChild (l k : ℤ) : Option ℤ := do
  let d ← fitInt (k - l)
  let d ← fitInt (d * 2)
  let c ← fitInt (d + l)
  fitInt (c + 1)

def greaterChild (n : ℤ) (arr : ℤ → ℤ) (h child : ℤ) : Option ℤ := do
  let next ← fitInt (child + 1)
  if next ≤ h then do
    let x ← load n arr child
    let y ← load n arr next
    some (if x < y then next else child)
  else some child

def percLoop (n l h tmp : ℤ) : ℕ → (ℤ → ℤ) → ℤ → Option (ℤ → ℤ)
  | 0, _, _ => none
  | fuel + 1, arr, k => do
    let child ← firstChild l k
    if child ≤ h then
      let child ← greaterChild n arr h child
      let x ← load n arr child
      if x > tmp then
        let arr ← store n arr k x
        percLoop n l h tmp fuel arr child
      else store n arr k tmp
    else store n arr k tmp

def percDown (n : ℤ) (fuel : ℕ) (arr : ℤ → ℤ) (l h k : ℤ) : Option (ℤ → ℤ) := do
  let tmp ← load n arr k
  percLoop n l h tmp fuel arr k

def heapSort (n : ℤ) (fuel : ℕ) (arr : ℤ → ℤ) (l h : ℤ) : Option (ℤ → ℤ) := do
  let arr ← forDown (l + (h - l).tdiv 2) l (fun i arr => percDown n fuel arr l h i) arr
  forDown h l (fun i arr => do
    let arr ← exchange n arr l i
    percDown n fuel arr l (i - 1) l) arr

def Child (l i c : ℤ) : Prop := c = (i - l) * 2 + l + 1 ∨ c = (i - l) * 2 + l + 2

def HeapOn (a : ℤ → ℤ) (l h k : ℤ) : Prop := ∀ i c, k ≤ i → Child l i c → c ≤ h → a c ≤ a i

theorem Child.below {l i c : ℤ} (hc : Child l i c) (hi : l ≤ i) : i < c := by
  rcases hc with rfl | rfl <;> omega

theorem Child.parent_unique {l i j c : ℤ} (hi : Child l i c) (hj : Child l j c) : i = j := by
  rcases hi with rfl | rfl <;> rcases hj with hj | hj <;> omega

theorem heap_root {a : ℤ → ℤ} {l h : ℤ} (ha : HeapOn a l h l) {i : ℤ} (hl : l ≤ i) (hh : i ≤ h) :
    a i ≤ a l := by
  obtain ⟨k, hk⟩ : ∃ k, (i - l).toNat = k := ⟨_, rfl⟩
  induction k using Nat.strong_induction_on generalizing i with
  | _ k ih =>
    by_cases hil : i = l
    · rw [hil]
    · obtain ⟨p, hp⟩ : ∃ p, p = l + (i - l - 1) / 2 := ⟨_, rfl⟩
      have hchild : Child l p i := by
        rw [Child]
        omega
      have hparent := ih (p - l).toNat (by omega) (i := p) (by omega) (by omega) rfl
      exact le_trans (ha p i (by omega) hchild hh) hparent

section PercDown

variable {n l h k k₀ tmp : ℤ} {a arr b : ℤ → ℤ} {fuel : ℕ}

/-- Child indices are ints in an array of up to 2 ^ 30 elements. -/
theorem first_child_eq (hint : n ≤ 2 ^ 30) (h0 : 0 ≤ l) (hlk : l ≤ k) (hkn : k < n) :
    firstChild l k = some ((k - l) * 2 + l + 1) := by
  rw [firstChild, fit_int_eq (by omega) (by omega), Option.bind_eq_bind, Option.bind_some,
    fit_int_eq (by omega) (by omega), Option.bind_some, fit_int_eq (by omega) (by omega),
    Option.bind_some, fit_int_eq (by omega) (by omega)]

theorem greater_child_eq {child : ℤ} (hint : n ≤ 2 ^ 30) (h0 : 0 ≤ child) (hn : h < n)
    (hc : child ≤ h) :
    ∃ c, greaterChild n a h child = some c ∧ (c = child ∨ c = child + 1) ∧ c ≤ h ∧
      a child ≤ a c ∧ (child + 1 ≤ h → a (child + 1) ≤ a c) := by
  rw [greaterChild, fit_int_eq (by omega) (by omega), Option.bind_eq_bind, Option.bind_some]
  by_cases hsecond : child + 1 ≤ h
  · rw [if_pos hsecond, load_eq h0 (by omega), load_eq (by omega) (by omega)]
    simp only [Option.bind_some]
    by_cases hlt : a child < a (child + 1)
    · rw [if_pos hlt]
      exact ⟨_, rfl, Or.inr rfl, hsecond, le_of_lt hlt, fun _ => le_refl _⟩
    · rw [if_neg hlt]
      exact ⟨_, rfl, Or.inl rfl, hc, le_refl _, fun _ => not_lt.mp hlt⟩
  · rw [if_neg hsecond]
    exact ⟨child, rfl, Or.inl rfl, hc, le_refl _, fun hle => absurd hle hsecond⟩

/-- In front of a turn of percDown, where `b` is what the array would be with the element in the
hole `k`. Only the children of the hole may be too great, and not for its parent. -/
structure PercInv (l h k₀ : ℤ) (a b : ℤ → ℤ) (k : ℤ) : Prop where
  start : k₀ ≤ k
  rearranged : Rearranged a b l h
  edges : ∀ i c, k₀ ≤ i → i ≠ k → Child l i c → c ≤ h → b c ≤ b i
  across : ∀ i c, k₀ ≤ i → Child l i k → Child l k c → c ≤ h → b c ≤ b i

/-- The greater child and the hole change places. -/
theorem perc_inv_down {c : ℤ} (hinv : PercInv l h k₀ a b k) (hk₀ : l ≤ k₀) (hchild : Child l k c)
    (hc : c ≤ h) (hgreatest : ∀ d, Child l k d → d ≤ h → b d ≤ b c) (hlt : b k < b c) :
    PercInv l h k₀ a (b ∘ Equiv.swap k c) c := by
  have hstart := hinv.start
  have hkc := hchild.below (by omega)
  have hk : (b ∘ Equiv.swap k c) k = b c := congrArg b (Equiv.swap_apply_left k c)
  have hc' : (b ∘ Equiv.swap k c) c = b k := congrArg b (Equiv.swap_apply_right k c)
  have hother : ∀ i, i ≠ k → i ≠ c → (b ∘ Equiv.swap k c) i = b i := fun i h₁ h₂ =>
    congrArg b (Equiv.swap_apply_of_ne_of_ne h₁ h₂)
  refine ⟨by omega, hinv.rearranged.trans (rearranged_swap (by omega) (by omega) (by omega) hc),
    fun i d hi hic hd hdh => ?_, fun i d hi hic hd hdh => ?_⟩
  · have hid := hd.below (by omega)
    by_cases hik : i = k
    · subst hik
      rw [hk]
      by_cases hdc : d = c
      · rw [hdc, hc']
        exact le_of_lt hlt
      · rw [hother d (by omega) hdc]
        exact hgreatest d hd hdh
    · rw [hother i hik hic]
      by_cases hdk : d = k
      · subst hdk
        rw [hk]
        exact hinv.across i c hi hd hchild hc
      · have hdc : d ≠ c := by
          rintro rfl
          exact hik (hd.parent_unique hchild)
        rw [hother d hdk hdc]
        exact hinv.edges i d hi hik hd hdh
  · obtain rfl := hic.parent_unique hchild
    have hcd := hd.below (by omega)
    rw [hk, hother d (by omega) (by omega)]
    exact hinv.edges c d (by omega) (by omega) hd hdh

theorem perc_loop_heap (hint : n ≤ 2 ^ 30) (h0 : 0 ≤ l) (hn : h < n) (hkn : k < n) (hk₀ : l ≤ k₀)
    (hk : k ≤ h + 1) (hfuel : h - k + 1 < fuel)
    (hinv : PercInv l h k₀ a (Function.update arr k tmp) k) :
    ∃ b, percLoop n l h tmp fuel arr k = some b ∧ HeapOn b l h k₀ ∧ Rearranged a b l h := by
  induction fuel generalizing arr k with
  | zero => omega
  | succ fuel ih =>
    have hstart := hinv.start
    -- the element is stored where no child is greater
    have hstop : (∀ c, Child l k c → c ≤ h → arr c ≤ tmp) →
        ∃ b, store n arr k tmp = some b ∧ HeapOn b l h k₀ ∧ Rearranged a b l h := by
      intro hle
      refine ⟨_, store_eq (by omega) hkn, fun i c hi hc hch => ?_, hinv.rearranged⟩
      by_cases hik : i = k
      · subst hik
        have hic := hc.below (by omega)
        rw [Function.update_self, Function.update_of_ne (by omega)]
        exact hle c hc hch
      · exact hinv.edges i c hi hik hc hch
    rw [percLoop, first_child_eq hint h0 (by omega) hkn, Option.bind_eq_bind, Option.bind_some]
    by_cases hchild : (k - l) * 2 + l + 1 ≤ h
    · obtain ⟨c, hgreater, hc, hch, hfirst, hsecond⟩ :=
        greater_child_eq (n := n) (a := arr) hint (by omega) hn hchild
      have hkc : Child l k c := by
        rw [Child]
        omega
      have hbelow := hkc.below (by omega)
      have hgreatest : ∀ d, Child l k d → d ≤ h → arr d ≤ arr c := by
        rintro d (rfl | rfl) hdh
        · exact hfirst
        · have := hsecond (by omega)
          rwa [add_assoc] at this
      have hload : load n arr c = some (arr c) := load_eq (by omega) (by omega)
      rw [if_pos hchild, hgreater]
      simp only [Option.bind_eq_bind, Option.bind_some, hload]
      by_cases hgt : arr c > tmp
      · rw [if_pos hgt, store_eq (by omega) hkn, Option.bind_some]
        refine ih (by omega) (by omega) (by omega) ?_
        have hb : ∀ d, d ≠ k → Function.update arr k tmp d = arr d := fun d hd =>
          Function.update_of_ne hd tmp arr
        have hself : Function.update arr k tmp k = tmp := Function.update_self k tmp arr
        have hlk : l ≤ k := by omega
        have hdown := perc_inv_down hinv hk₀ hkc hch (fun d hd hdh => by
          rw [hb d (by have := hd.below hlk; omega), hb c (by omega)]
          exact hgreatest d hd hdh) (by rwa [hself, hb c (by omega)])
        convert hdown using 1
        funext d
        rw [Function.comp_apply]
        by_cases hdc : d = c
        · subst hdc
          rw [Function.update_self, Equiv.swap_apply_right, hself]
        · rw [Function.update_of_ne hdc]
          by_cases hdk : d = k
          · subst hdk
            rw [Function.update_self, Equiv.swap_apply_left, hb c (by omega)]
          · rw [Function.update_of_ne hdk, Equiv.swap_apply_of_ne_of_ne hdk hdc, hb d hdk]
      · rw [if_neg hgt]
        exact hstop fun d hd hdh => le_trans (hgreatest d hd hdh) (not_lt.mp hgt)
    · rw [if_neg hchild]
      refine hstop fun c hc hch => ?_
      rcases hc with rfl | rfl <;> omega

/-- The indices behind `k` make up heaps already; percDown makes one of `k` too. -/
theorem perc_down_heap (hint : n ≤ 2 ^ 30) (h0 : 0 ≤ l) (hn : h < n) (hlk : l ≤ k) (hkn : k < n)
    (hk : k ≤ h + 1) (hfuel : h - k + 1 < fuel) (ha : HeapOn a l h (k + 1)) :
    ∃ b, percDown n fuel a l h k = some b ∧ HeapOn b l h k ∧ Rearranged a b l h := by
  rw [percDown, load_eq (by omega) hkn, Option.bind_eq_bind, Option.bind_some]
  have hsame : Function.update a k (a k) = a := Function.update_eq_self k a
  refine perc_loop_heap hint h0 hn hkn hlk hk hfuel ?_
  rw [hsame]
  refine ⟨le_refl k, rearranged_refl a l h, fun i c hi hik => ha i c (by omega),
    fun i c hi hik => ?_⟩
  have := hik.below (by omega)
  omega

end PercDown

section HeapSort

variable {n l h i : ℤ} {a b : ℤ → ℤ} {fuel : ℕ}

/-- In front of a turn of the second loop: a heap up to `i`, and the rest sorted above it. -/
structure SortInv (l h : ℤ) (a : ℤ → ℤ) (i : ℤ) (b : ℤ → ℤ) : Prop where
  heap : HeapOn b l i l
  sorted : SortedOn b (i + 1) h
  across : ∀ x y, l ≤ x → x ≤ i → i < y → y ≤ h → b x ≤ b y
  rearranged : Rearranged a b l h

/-- The greatest element of the heap is put behind it. -/
theorem sort_inv_turn (hint : n ≤ 2 ^ 30) (h0 : 0 ≤ l) (hn : h < n) (hli : l ≤ i) (hih : i ≤ h)
    (hfuel : h - l + 1 < fuel) (hinv : SortInv l h a i b) :
    ∃ c, (do
      let arr ← exchange n b l i
      percDown n fuel arr l (i - 1) l) = some c ∧ SortInv l h a (i - 1) c := by
  rw [exchange_eq h0 (by omega) (by omega) (by omega), Option.bind_eq_bind, Option.bind_some]
  have hroot : (b ∘ Equiv.swap l i) i = b l := congrArg b (Equiv.swap_apply_right l i)
  have hother : ∀ j, j ≠ l → j ≠ i → (b ∘ Equiv.swap l i) j = b j := fun j h₁ h₂ =>
    congrArg b (Equiv.swap_apply_of_ne_of_ne h₁ h₂)
  have hswap : Rearranged b (b ∘ Equiv.swap l i) l i :=
    rearranged_swap (le_refl l) hli hli (le_refl i)
  have hheap : HeapOn (b ∘ Equiv.swap l i) l (i - 1) (l + 1) := by
    intro j c hj hc hci
    have := hc.below (by omega)
    rw [hother j (by omega) (by omega), hother c (by omega) (by omega)]
    exact hinv.heap j c (by omega) hc (by omega)
  have henough : i - 1 - l + 1 < (fuel : ℤ) := by omega
  obtain ⟨c, hc, hcheap, hcre⟩ := perc_down_heap (n := n) hint h0 (by omega) (le_refl l)
    (by omega) (by omega) henough hheap
  have hupper : ∀ y, i < y → c y = b y := fun y hy => by
    rw [hcre.outside y (by omega), hother y (by omega) (by omega)]
  have hci : c i = b l := by
    rw [hcre.outside i (by omega), hroot]
  have hgreatest : ∀ x, l ≤ x → x ≤ i - 1 → c x ≤ b l := by
    refine hcre.forall (P := (· ≤ b l)) fun x hx hxi => ?_
    exact hswap.forall (P := (· ≤ b l)) (fun y hy hyi => heap_root hinv.heap hy hyi) x hx (by omega)
  refine ⟨c, hc, hcheap, ?_, fun x y hx hxi hy hyh => ?_, ?_⟩
  · intro x y hx hxy hy
    by_cases hxi : x = i
    · subst hxi
      by_cases hyx : y = x
      · rw [hyx]
      · rw [hci, hupper y (by omega)]
        exact hinv.across l y (le_refl l) hli (by omega) hy
    · rw [hupper x (by omega), hupper y (by omega)]
      exact hinv.sorted x y (by omega) hxy hy
  · by_cases hyi : y = i
    · rw [hyi, hci]
      exact hgreatest x hx hxi
    · rw [hupper y (by omega)]
      exact le_trans (hgreatest x hx hxi) (hinv.across l y (le_refl l) hli (by omega) hyh)
  · exact (hinv.rearranged.trans (hswap.mono (le_refl l) hih)).trans
      (hcre.mono (le_refl l) (by omega))

theorem heap_sort_range (hint : n ≤ 2 ^ 30) (h0 : 0 ≤ l) (hn : h < n) (hle : l ≤ h)
    (hfuel : h - l + 1 < fuel) :
    ∃ b, heapSort n fuel a l h = some b ∧ SortedOn b l h ∧ Rearranged a b l h := by
  have hhalf : (h - l).tdiv 2 = (h - l) / 2 := Int.tdiv_eq_ediv_of_nonneg (by omega)
  obtain ⟨b, hb, hheap, hab⟩ := for_down_rule (h := l + (h - l).tdiv 2) (l := l) (s := a)
    (f := fun i arr => percDown n fuel arr l h i)
    (P := fun i b => HeapOn b l h (i + 1) ∧ Rearranged a b l h) (by omega)
    ⟨fun i c hi hc hch => by rcases hc with rfl | rfl <;> omega, rearranged_refl a l h⟩
    (fun i s hi hih ⟨hheap, has⟩ => by
      have henough : h - i + 1 < (fuel : ℤ) := by omega
      obtain ⟨t, ht, htheap, hst⟩ := perc_down_heap (n := n) hint h0 hn hi (by omega)
        (by omega) henough hheap
      exact ⟨t, ht, by rwa [Int.sub_add_cancel], has.trans hst⟩)
  rw [Int.sub_add_cancel] at hheap
  obtain ⟨c, hc, hinv⟩ := for_down_rule (h := h) (l := l) (s := b)
    (f := fun i arr => do
      let arr ← exchange n arr l i
      percDown n fuel arr l (i - 1) l)
    (P := SortInv l h a) (by omega)
    ⟨hheap, fun x y hx hxy hy => by omega, fun x y hx hxi hy hyh => by omega, hab⟩
    (fun i s hi hih hinv => sort_inv_turn hint h0 hn hi hih hfuel hinv)
  refine ⟨c, ?_, ?_, hinv.rearranged⟩
  · rw [heapSort, hb]
    exact hc
  · have hsorted := hinv.sorted
    rwa [Int.sub_add_cancel] at hsorted

/-- heap_sort sorts its range within it, in an array of up to 2 ^ 30 elements. Of an empty range
it touches the element at its beginning, which the array has to have. -/
theorem heap_sort_sorts (hint : n ≤ 2 ^ 30) (h0 : 0 ≤ l) (hn : h < n) (hle : l ≤ h + 1)
    (hfuel : h - l + 1 < fuel) :
    ((∃ b, heapSort n fuel a l h = some b) ↔ l < n) ∧
      ∀ b, heapSort n fuel a l h = some b → SortedOn b l h ∧ Rearranged a b l h := by
  by_cases hempty : l ≤ h
  · obtain ⟨b, hb, hsorted, hab⟩ := heap_sort_range (a := a) hint h0 hn hempty hfuel
    refine ⟨iff_of_true ⟨b, hb⟩ (by omega), fun c hc => ?_⟩
    obtain rfl := Option.some.inj (hb.symm.trans hc)
    exact ⟨hsorted, hab⟩
  · obtain rfl : h = l - 1 := by omega
    have hone : upFrom l l = [l] := by
      rw [up_from_cons (le_refl l), up_from_nil (by omega)]
    have hnone : upFrom l (l - 1) = [] := up_from_nil (by omega)
    have hrun : heapSort n fuel a l (l - 1) = percDown n fuel a l (l - 1) l := by
      simp [heapSort, forDown, hone, hnone]
    obtain ⟨k, rfl⟩ : ∃ k, fuel = k + 1 := ⟨fuel - 1, by omega⟩
    rw [hrun, percDown]
    by_cases hln : l < n
    · rw [load_eq h0 hln, Option.bind_eq_bind, Option.bind_some, percLoop,
        first_child_eq hint h0 (le_refl l) hln, Option.bind_eq_bind, Option.bind_some,
        if_neg (by omega), store_eq h0 hln, Function.update_eq_self]
      refine ⟨iff_of_true ⟨a, rfl⟩ hln, fun b hb => ?_⟩
      obtain rfl := Option.some.inj hb
      exact ⟨fun i j hi hij hj => by omega, rearranged_refl a l _⟩
    · rw [load, if_neg (by omega)]
      have hfails : ∀ b, (none : Option (ℤ → ℤ)) ≠ some b := fun b => (Option.some_ne_none b).symm
      refine ⟨iff_of_false ?_ hln, fun b hb => absurd hb (hfails b)⟩
      rintro ⟨b, hb⟩
      exact hfails b hb

theorem heap_sort_sorts_sample :
    (∃ b, heapSort 4 5 (fun i => 7 - i) 1 3 = some b ∧ SortedOn b 1 3) ∧
      heapSort 0 2 (fun i => i) 0 (-1) = none := by
  constructor
  · obtain ⟨hreturns, hsorts⟩ := heap_sort_sorts (n := 4) (l := 1) (h := 3) (a := fun i => 7 - i)
      (by decide) (by decide) (by decide) (by decide)
      (show (3 : ℤ) - 1 + 1 < ((5 : ℕ) : ℤ) by decide)
    obtain ⟨b, hb⟩ := hreturns.mpr (by decide)
    exact ⟨b, hb, (hsorts b hb).1⟩
  · refine Option.eq_none_iff_forall_ne_some.mpr fun b hb => ?_
    have hin := (heap_sort_sorts (by decide) (by decide) (by decide) (by decide)
      (by decide)).1.mp ⟨b, hb⟩
    exact absurd hin (by decide)

end HeapSort

end HeapSort
