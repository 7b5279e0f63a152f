import MakeDownFile.HeapSort
import MakeDownFile.MergeSort
import MakeDownFile.QuickSort

/-! # The simple sorts

Insertion, bubble and selection sort, and their agreement with the others. The inner loop of
insert_sort goes down to the beginning of the array, not of the range. -/
namespace SimpleSorts

open ArrayRanges

def order (n : ℤ) (arr : ℤ → ℤ) (i : ℤ) : Option (ℤ → ℤ) := do
  let x ← load n arr (i + 1)
  let y ← load n arr i
  if x < y then exchange n arr (i + 1) i else some arr

def insertSort (n : ℤ) (arr : ℤ → ℤ) (l h : ℤ) : Option (ℤ → ℤ) :=
  forUp (l + 1) h (fun i arr => forDown i 1 (fun j arr => order n arr (j - 1)) arr) arr

def bubbleSort (n : ℤ) (arr : ℤ → ℤ) (l h : ℤ) : Option (ℤ → ℤ) :=
  forUp l h (fun i arr => forUp l (h - i + l - 1) (fun j arr => order n arr j) arr) arr

def selectId (n : ℤ) (arr : ℤ → ℤ) (i h : ℤ) : Option ℤ :=
  forUp (i + 1) h (fun j id => do
    let x ← load n arr j
    let y ← load n arr id
    some (if x < y then j else id)) i

def selectSort (n : ℤ) (arr : ℤ → ℤ) (l h : ℤ) : Option (ℤ → ℤ) :=
  forUp l h (fun i arr => do
    let id ← selectId n arr i h
    exchange n arr i id) arr

section Order

variable {n i : ℤ} {a : ℤ → ℤ}

theorem order_orders (h0 : 0 ≤ i) (hn : i + 1 < n) : ∃ b, order n a i = some b ∧
    Rearranged a b i (i + 1) ∧ b i ≤ b (i + 1) ∧ a i ≤ b (i + 1) := by
  rw [order, load_eq (by omega) hn, load_eq h0 (by omega)]
  simp only [Option.bind_eq_bind, Option.bind_some]
  by_cases hlt : a (i + 1) < a i
  · rw [if_pos hlt, exchange_eq (by omega) hn h0 (by omega)]
    refine ⟨_, rfl, rearranged_swap (by omega) (by omega) (by omega) (by omega), ?_, ?_⟩
    · rw [Function.comp_apply, Function.comp_apply, Equiv.swap_apply_left, Equiv.swap_apply_right]
      exact le_of_lt hlt
    · rw [Function.comp_apply, Equiv.swap_apply_left]
  · rw [if_neg hlt]
    exact ⟨a, rfl, rearranged_refl a _ _, not_lt.mp hlt, not_lt.mp hlt⟩

end Order

section Insert

variable {n l h i j : ℤ} {a b : ℤ → ℤ}

structure InsertInv (i : ℤ) (a : ℤ → ℤ) (j : ℤ) (b : ℤ → ℤ) : Prop where
  before : SortedOn b 0 (j - 1)
  behind : SortedOn b j i
  across : ∀ x y, 0 ≤ x → x < j → j < y → y ≤ i → b x ≤ b y
  rearranged : Rearranged a b 0 i

theorem insert_inv_down (hn : i < n) (hj : 1 ≤ j) (hji : j ≤ i) (hinv : InsertInv i a j b) :
    ∃ c, order n b (j - 1) = some c ∧ InsertInv i a (j - 1) c := by
  obtain ⟨c, hc, hbc, hordered, hgreater⟩ := order_orders (n := n) (a := b) (i := j - 1) (by omega)
    (by omega)
  rw [Int.sub_add_cancel] at hbc hordered hgreater
  have hsame : ∀ x, x < j - 1 ∨ j < x → c x = b x := hbc.outside
  have hlow : ∀ x, 0 ≤ x → x < j - 1 → c x ≤ c j := by
    intro x hx hxj
    rw [hsame x (Or.inl hxj)]
    exact le_trans (hinv.before x (j - 1) hx (by omega) (le_refl _)) hgreater
  have hhigh : ∀ y, j < y → y ≤ i → c j ≤ c y := by
    intro y hy hyi
    rw [hsame y (Or.inr hy)]
    refine hbc.forall (P := (· ≤ b y)) (fun x hx hxj => ?_) j (by omega) (le_refl j)
    by_cases hxj' : x = j
    · rw [hxj']
      exact hinv.behind j y (le_refl j) (by omega) hyi
    · exact hinv.across x y (by omega) (by omega) hy hyi
  refine ⟨c, hc, sorted_congr (fun x _ hx => hsame x (by omega)) fun x y hx hxy hy =>
    hinv.before x y hx hxy (by omega), ?_, fun x y hx hxj hy hyi => ?_,
    hinv.rearranged.trans (hbc.mono (by omega) hji)⟩
  · refine sorted_glue (m := j) (sorted_short (le_refl _)) ?_ fun x y hx hxj hy hyi => ?_
    · refine sorted_glue (m := j + 1) (sorted_short (by omega)) ?_ fun x y hx hxj hy hyi => ?_
      · exact sorted_congr (fun x hx _ => hsame x (by omega)) fun x y hx hxy hy =>
          hinv.behind x y (by omega) hxy hy
      · obtain rfl : x = j := by omega
        exact hhigh y (by omega) hyi
    · obtain rfl : x = j - 1 := by omega
      by_cases hyj : y = j
      · rwa [hyj]
      · exact le_trans hordered (hhigh y (by omega) hyi)
  · by_cases hyj : y = j
    · rw [hyj]
      exact hlow x hx hxj
    · exact le_trans (hlow x hx hxj) (hhigh y (by omega) hyi)

/-- insert_sort sorts the array up to the end of the range, if it is sorted up to its
beginning. -/
theorem insert_sort_sorts (h0 : 0 ≤ l) (hn : h < n) (hle : l ≤ h) (hsorted : SortedOn a 0 l) :
    ∃ b, insertSort n a l h = some b ∧ SortedOn b 0 h ∧ Rearranged a b 0 h := by
  obtain ⟨b, hb, hb', hab⟩ := for_up_rule (l := l + 1) (h := h) (s := a)
    (f := fun i arr => forDown i 1 (fun j arr => order n arr (j - 1)) arr)
    (P := fun i b => SortedOn b 0 (i - 1) ∧ Rearranged a b 0 h) (by omega)
    ⟨by rwa [Int.add_sub_cancel], rearranged_refl a 0 h⟩
    (fun i s hi hih ⟨hs, has⟩ => by
      have hstart : InsertInv i s i s := ⟨hs, sorted_short (le_refl i),
        fun x y _ _ hy hyi => by omega, rearranged_refl s 0 i⟩
      obtain ⟨t, ht, hinv⟩ := for_down_rule (h := i) (l := 1) (s := s)
        (f := fun j arr => order n arr (j - 1)) (P := InsertInv i s) (by omega) hstart
        fun j u hj hji hu => insert_inv_down (by omega) hj hji hu
      refine ⟨t, ht, ?_, has.trans (hinv.rearranged.mono (le_refl 0) hih)⟩
      rw [Int.add_sub_cancel]
      exact hinv.behind)
  rw [Int.add_sub_cancel] at hb'
  exact ⟨b, hb, hb', hab⟩

end Insert

section Bubble

variable {n l h i : ℤ} {a : ℤ → ℤ}

theorem bubble_pass {e : ℤ} (h0 : 0 ≤ l) (hn : e < n) (hle : l ≤ e) :
    ∃ b, forUp l (e - 1) (fun j arr => order n arr j) a = some b ∧ Rearranged a b l e ∧
      ∀ x, l ≤ x → x ≤ e → b x ≤ b e := by
  obtain ⟨b, hb, hab, hmax⟩ := for_up_rule (l := l) (h := e - 1) (s := a)
    (f := fun j arr => order n arr j)
    (P := fun j b => Rearranged a b l e ∧ ∀ x, l ≤ x → x ≤ j → b x ≤ b j) (by omega)
    ⟨rearranged_refl a l e, fun x hx hxl => sorted_short (le_refl l) x l hx hxl (le_refl l)⟩
    (fun j s hj hje ⟨has, hmax⟩ => by
      obtain ⟨t, ht, hst, hordered, hgreater⟩ := order_orders (n := n) (a := s) (i := j) (by omega)
        (by omega)
      refine ⟨t, ht, has.trans (hst.mono hj (by omega)), fun x hx hxj => ?_⟩
      by_cases hxj' : x = j + 1
      · rw [hxj']
      · by_cases hxj'' : x = j
        · rwa [hxj'']
        · rw [hst.outside x (by omega)]
          exact le_trans (hmax x hx (by omega)) hgreater)
  rw [Int.sub_add_cancel] at hmax
  exact ⟨b, hb, hab, hmax⟩

/-- In front of the pass `i`: the elements behind `e` are the greatest, and sorted. -/
structure BubbleInv (l h e : ℤ) (a b : ℤ → ℤ) : Prop where
  sorted : SortedOn b (e + 1) h
  across : ∀ x y, l ≤ x → x ≤ e → e < y → y ≤ h → b x ≤ b y
  rearranged : Rearranged a b l h

theorem bubble_inv_pass {e : ℤ} {b c : ℤ → ℤ} (heh : e ≤ h) (hle : l ≤ e)
    (hinv : BubbleInv l h e a b) (hbc : Rearranged b c l e)
    (hmax : ∀ x, l ≤ x → x ≤ e → c x ≤ c e) : BubbleInv l h (e - 1) a c := by
  have hupper : ∀ x y, l ≤ x → x ≤ e → e < y → y ≤ h → c x ≤ c y := by
    intro x y hx hxe hy hyh
    rw [hbc.outside y (by omega)]
    exact hbc.forall (P := (· ≤ b y)) (fun z hz hze => hinv.across z y hz hze hy hyh) x hx hxe
  refine ⟨?_, fun x y hx hxe hy hyh => ?_, hinv.rearranged.trans (hbc.mono (le_refl l) heh)⟩
  · rw [Int.sub_add_cancel]
    refine sorted_glue (m := e + 1) (sorted_short (by omega)) ?_ fun x y hx hxe hy hyh => ?_
    · exact sorted_congr (fun x hx _ => hbc.outside x (by omega)) hinv.sorted
    · exact hupper x y (by omega) (by omega) (by omega) hyh
  · by_cases hye : y = e
    · rw [hye]
      exact hmax x hx (by omega)
    · exact hupper x y hx (by omega) (by omega) hyh

theorem bubble_sort_sorts (h0 : 0 ≤ l) (hn : h < n) (hle : l ≤ h + 1) :
    ∃ b, bubbleSort n a l h = some b ∧ SortedOn b l h ∧ Rearranged a b l h := by
  obtain ⟨b, hb, hinv⟩ := for_up_rule (l := l) (h := h) (s := a)
    (f := fun i arr => forUp l (h - i + l - 1) (fun j arr => order n arr j) arr)
    (P := fun i b => BubbleInv l h (h - i + l) a b) hle
    ⟨fun x y hx hxy hy => by omega, fun x y hx hxe hy hyh => by omega, rearranged_refl a l h⟩
    (fun i s hi hih hinv => by
      obtain ⟨t, ht, hst, hmax⟩ := bubble_pass (n := n) (a := s) (e := h - i + l) h0 (by omega)
        (by omega)
      refine ⟨t, ht, ?_⟩
      have hnext : h - (i + 1) + l = h - i + l - 1 := by omega
      rw [hnext]
      exact bubble_inv_pass (by omega) (by omega) hinv hst hmax)
  have hsorted := hinv.sorted
  have hall : h - (h + 1) + l + 1 = l := by omega
  rw [hall] at hsorted
  exact ⟨b, hb, hsorted, hinv.rearranged⟩

end Bubble

section Select

variable {n l h i : ℤ} {a b : ℤ → ℤ}

theorem select_id_min (h0 : 0 ≤ i) (hn : h < n) (hih : i ≤ h) : ∃ id, selectId n a i h = some id ∧
    i ≤ id ∧ id ≤ h ∧ ∀ x, i ≤ x → x ≤ h → a id ≤ a x := by
  obtain ⟨id, hid, hi, hh, hmin⟩ := for_up_rule (l := i + 1) (h := h) (s := i)
    (f := fun j id => do
      let x ← load n a j
      let y ← load n a id
      some (if x < y then j else id))
    (P := fun j id => i ≤ id ∧ id ≤ h ∧ ∀ x, i ≤ x → x < j → a id ≤ a x) (by omega)
    ⟨le_refl i, hih, fun x hx hxi => sorted_short (le_refl i) i x (le_refl i) hx (by omega)⟩
    (fun j id hj hjh ⟨hi, hh, hmin⟩ => by
      rw [load_eq (by omega) (by omega), load_eq (by omega) (by omega)]
      simp only [Option.bind_eq_bind, Option.bind_some]
      by_cases hlt : a j < a id
      · rw [if_pos hlt]
        refine ⟨j, rfl, by omega, hjh, fun x hx hxj => ?_⟩
        by_cases hxj' : x = j
        · rw [hxj']
        · exact le_trans (le_of_lt hlt) (hmin x hx (by omega))
      · rw [if_neg hlt]
        refine ⟨id, rfl, hi, hh, fun x hx hxj => ?_⟩
        by_cases hxj' : x = j
        · rw [hxj']
          exact not_lt.mp hlt
        · exact hmin x hx (by omega))
  exact ⟨id, hid, hi, hh, fun x hx hxh => hmin x hx (by omega)⟩

/-- In front of the turn `i`: the elements before it are the smallest, and sorted. -/
structure SelectInv (l h : ℤ) (a : ℤ → ℤ) (i : ℤ) (b : ℤ → ℤ) : Prop where
  sorted : SortedOn b l (i - 1)
  across : ∀ x y, l ≤ x → x < i → i ≤ y → y ≤ h → b x ≤ b y
  rearranged : Rearranged a b l h

theorem select_inv_turn (h0 : 0 ≤ l) (hn : h < n) (hli : l ≤ i) (hih : i ≤ h)
    (hinv : SelectInv l h a i b) : ∃ c, (do
      let id ← selectId n b i h
      exchange n b i id) = some c ∧ SelectInv l h a (i + 1) c := by
  obtain ⟨id, hid, hi, hh, hmin⟩ := select_id_min (n := n) (a := b) (by omega) hn hih
  rw [hid, Option.bind_eq_bind, Option.bind_some,
    exchange_eq (by omega) (by omega) (by omega) (by omega)]
  have hswap : Rearranged b (b ∘ Equiv.swap i id) i h := rearranged_swap (le_refl i) hih hi hh
  have hself : (b ∘ Equiv.swap i id) i = b id := congrArg b (Equiv.swap_apply_left i id)
  have hleast : ∀ y, i ≤ y → y ≤ h → b id ≤ (b ∘ Equiv.swap i id) y :=
    hswap.forall (P := (b id ≤ ·)) hmin
  have hlow : ∀ x y, l ≤ x → x < i → i ≤ y → y ≤ h →
      (b ∘ Equiv.swap i id) x ≤ (b ∘ Equiv.swap i id) y := by
    intro x y hx hxi hy hyh
    rw [hswap.outside x (Or.inl hxi)]
    exact hswap.forall (P := (b x ≤ ·)) (fun z hz hzh => hinv.across x z hx hxi hz hzh) y hy hyh
  refine ⟨_, rfl, ?_, fun x y hx hxi hy hyh => ?_,
    hinv.rearranged.trans (hswap.mono hli (le_refl h))⟩
  · rw [Int.add_sub_cancel]
    refine sorted_glue (m := i) ?_ (sorted_short (le_refl i)) fun x y hx hxi hy hyi =>
      hlow x y hx hxi hy (by omega)
    exact sorted_congr (fun x _ hx => hswap.outside x (by omega)) hinv.sorted
  · by_cases hxi' : x = i
    · rw [hxi', hself]
      exact hleast y (by omega) hyh
    · exact hlow x y hx (by omega) (by omega) hyh

theorem select_sort_sorts (h0 : 0 ≤ l) (hn : h < n) (hle : l ≤ h + 1) :
    ∃ b, selectSort n a l h = some b ∧ SortedOn b l h ∧ Rearranged a b l h := by
  obtain ⟨b, hb, hinv⟩ := for_up_rule (l := l) (h := h) (s := a)
    (f := fun i arr => do
      let id ← selectId n arr i h
      exchange n arr i id)
    (P := SelectInv l h a) hle
    ⟨fun x y hx hxy hy => by omega, fun x y hx hxl hy hyh => by omega, rearranged_refl a l h⟩
    (fun i s hi hih hinv => select_inv_turn h0 hn hi hih hinv)
  have hsorted := hinv.sorted
  rw [Int.add_sub_cancel] at hsorted
  exact ⟨b, hb, hsorted, hinv.rearranged⟩

end Select

section Agreement

open HeapSort MergeSort QuickSort

variable {n l h : ℤ} {a : ℤ → ℤ} {fuel : ℕ}

/-- In an array of up to 2 ^ 30 elements the five sorts that stay in their range make the same of
it; so does insertion sort where the range starts with the array. -/
theorem sorts_agree (hint : n ≤ 2 ^ 30) (h0 : 0 ≤ l) (hn : h < n) (hle : l ≤ h)
    (hfuel : h - l + 1 < fuel) :
    ∃ b, quickSort n fuel a l h = some b ∧ heapSort n fuel a l h = some b ∧
      mergeSort n fuel a l h = some b ∧ bubbleSort n a l h = some b ∧
      selectSort n a l h = some b ∧ (l = 0 → insertSort n a l h = some b) := by
  obtain ⟨b, hb, hsorted, hab⟩ := quick_sort_range (a := a) h0 hn (by omega) hfuel
  have hsame : ∀ {c}, SortedOn c l h → Rearranged a c l h → c = b := fun hc hac =>
    sorted_unique hc hsorted hac hab
  obtain ⟨c₁, h₁, hs₁, hr₁⟩ := heap_sort_range (a := a) hint h0 hn hle hfuel
  obtain ⟨c₂, h₂, hs₂, hr₂⟩ := merge_sort_range (a := a) h0 hn hle hfuel
  obtain ⟨c₃, h₃, hs₃, hr₃⟩ := bubble_sort_sorts (a := a) h0 hn (by omega)
  obtain ⟨c₄, h₄, hs₄, hr₄⟩ := select_sort_sorts (a := a) h0 hn (by omega)
  refine ⟨b, hb, hsame hs₁ hr₁ ▸ h₁, hsame hs₂ hr₂ ▸ h₂, hsame hs₃ hr₃ ▸ h₃, hsame hs₄ hr₄ ▸ h₄,
    fun hl => ?_⟩
  subst hl
  obtain ⟨c₅, h₅, hs₅, hr₅⟩ := insert_sort_sorts (a := a) h0 hn hle (sorted_short (le_refl 0))
  exact hsame hs₅ hr₅ ▸ h₅

theorem sorts_agree_sample : ∃ b, quickSort 4 5 (fun i => 7 - i) 1 3 = some b ∧
    heapSort 4 5 (fun i => 7 - i) 1 3 = some b := by
  obtain ⟨b, hquick, hheap, -⟩ := sorts_agree (n := 4) (l := 1) (h := 3) (a := fun i => 7 - i)
    (by decide) (by decide) (by decide) (by decide)
    (show (3 : ℤ) - 1 + 1 < ((5 : ℕ) : ℤ) by decide)
  exact ⟨b, hquick, hheap⟩

end Agreement

end SimpleSorts
