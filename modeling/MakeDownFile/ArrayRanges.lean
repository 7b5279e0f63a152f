import Mathlib.Data.List.Nodup
import Mathlib.Data.List.Perm.Basic
import Mathlib.Data.Int.Notation
import Mathlib.Logic.Equiv.Basic
import Mathlib.Order.Basic
import Mathlib.Tactic.Ring

/-! # Ranges of an array

Loads and stores in an array of `n` elements, of which an index outside is a fault, and loops over
ranges of indices. What sorting in place may do is rearrange a range; two sorted rearrangements
are the same. -/
namespace ArrayRanges

variable {α σ : Type}

def load (n : ℤ) (a : ℤ → α) (i : ℤ) : Option α := if 0 ≤ i ∧ i < n then some (a i) else none

def store (n : ℤ) (a : ℤ → α) (i : ℤ) (x : α) : Option (ℤ → α) :=
  if 0 ≤ i ∧ i < n then some (Function.update a i x) else none

/-- A sum or product in int. One that does not fit is undefined. -/
def fitInt (x : ℤ) : Option ℤ := if -2 ^ 31 ≤ x ∧ x < 2 ^ 31 then some x else none

def exchange (n : ℤ) (a : ℤ → α) (i j : ℤ) : Option (ℤ → α) := do
  let x ← load n a i
  let y ← load n a j
  let a ← store n a i y
  store n a j x

def upFrom (l h : ℤ) : List ℤ := (List.range (h + 1 - l).toNat).map fun k : ℕ => l + k

def forUp (l h : ℤ) (body : ℤ → σ → Option σ) (s : σ) : Option σ :=
  (upFrom l h).foldlM (fun s i => body i s) s

def forDown (h l : ℤ) (body : ℤ → σ → Option σ) (s : σ) : Option σ :=
  (upFrom l h).reverse.foldlM (fun s i => body i s) s

def cells (a : ℤ → α) (l h : ℤ) : List α := (upFrom l h).map a

/-- Nothing has changed but the order of the elements from `l` to `h`. -/
structure Rearranged (a b : ℤ → α) (l h : ℤ) : Prop where
  outside : ∀ i, i < l ∨ h < i → b i = a i
  perm : (cells b l h).Perm (cells a l h)

def SortedOn [LE α] (a : ℤ → α) (l h : ℤ) : Prop := ∀ i j, l ≤ i → i ≤ j → j ≤ h → a i ≤ a j

section Access

variable {n i j : ℤ} {a : ℤ → α} {x : α}

theorem load_eq (h0 : 0 ≤ i) (hn : i < n) : load n a i = some (a i) := if_pos ⟨h0, hn⟩

theorem store_eq (h0 : 0 ≤ i) (hn : i < n) : store n a i x = some (Function.update a i x) :=
  if_pos ⟨h0, hn⟩

theorem fit_int_eq (h0 : -2 ^ 31 ≤ i) (hn : i < 2 ^ 31) : fitInt i = some i := if_pos ⟨h0, hn⟩

theorem exchange_eq (hi : 0 ≤ i) (hin : i < n) (hj : 0 ≤ j) (hjn : j < n) :
    exchange n a i j = some (a ∘ Equiv.swap i j) := by
  simp only [exchange, load_eq hi hin, load_eq hj hjn, store_eq hi hin, store_eq hj hjn,
    Option.bind_eq_bind, Option.bind_some]
  refine congrArg some (funext fun k => ?_)
  rw [Function.comp_apply]
  by_cases hkj : k = j
  · subst hkj
    rw [Function.update_self, Equiv.swap_apply_right]
  · rw [Function.update_of_ne hkj]
    by_cases hki : k = i
    · subst hki
      rw [Function.update_self, Equiv.swap_apply_left]
    · rw [Function.update_of_ne hki, Equiv.swap_apply_of_ne_of_ne hki hkj]

end Access

section Indices

variable {l m h i : ℤ}

@[simp] theorem mem_up_from : i ∈ upFrom l h ↔ l ≤ i ∧ i ≤ h := by
  rw [upFrom, List.mem_map]
  constructor
  · rintro ⟨k, hk, rfl⟩
    have := List.mem_range.mp hk
    omega
  · rintro ⟨hl, hh⟩
    exact ⟨(i - l).toNat, List.mem_range.mpr (by omega), by omega⟩

theorem up_from_nodup : (upFrom l h).Nodup := by
  refine List.Nodup.map (fun j k hjk => ?_) List.nodup_range
  have : l + (j : ℤ) = l + k := hjk
  omega

theorem up_from_nil (hle : h < l) : upFrom l h = [] := by
  have hempty : (h + 1 - l).toNat = 0 := by omega
  rw [upFrom, hempty, List.range_zero, List.map_nil]

theorem up_from_cons (hle : l ≤ h) : upFrom l h = l :: upFrom (l + 1) h := by
  obtain ⟨k, hk⟩ : ∃ k, (h + 1 - l).toNat = k + 1 := ⟨(h - l).toNat, by omega⟩
  have hrest : (h + 1 - (l + 1)).toNat = k := by omega
  rw [upFrom, upFrom, hk, hrest, List.range_succ_eq_map, List.map_cons, List.map_map, Nat.cast_zero,
    add_zero]
  refine congrArg (l :: ·) (List.map_congr_left fun j _ => ?_)
  simp only [Function.comp_apply, Nat.cast_succ]
  omega

theorem up_from_concat (hle : l ≤ h) : upFrom l h = upFrom l (h - 1) ++ [h] := by
  obtain ⟨k, hk⟩ : ∃ k, (h + 1 - l).toNat = k + 1 := ⟨(h - l).toNat, by omega⟩
  have hrest : (h - 1 + 1 - l).toNat = k := by omega
  have hlast : l + (k : ℤ) = h := by omega
  rw [upFrom, upFrom, hk, hrest, List.range_succ, List.map_append, List.map_singleton, hlast]

theorem up_from_append (hl : l ≤ m + 1) (hm : m ≤ h) :
    upFrom l h = upFrom l m ++ upFrom (m + 1) h := by
  obtain ⟨k, hk⟩ : ∃ k, (m + 1 - l).toNat = k := ⟨_, rfl⟩
  induction k generalizing l with
  | zero =>
    obtain rfl : l = m + 1 := by omega
    rw [up_from_nil (lt_add_one m), List.nil_append]
  | succ k ih =>
    have hlm : l ≤ m := by omega
    rw [up_from_cons (hlm.trans hm), up_from_cons hlm, ih (by omega) (by omega), List.cons_append]

end Indices

section Loops

variable {l h : ℤ} {f : ℤ → σ → Option σ} {P : ℤ → σ → Prop} {s : σ}

/-- A loop that counts up keeps what every turn hands on to the next index. -/
theorem for_up_rule (hle : l ≤ h + 1) (hs : P l s)
    (hstep : ∀ i s, l ≤ i → i ≤ h → P i s → ∃ t, f i s = some t ∧ P (i + 1) t) :
    ∃ t, forUp l h f s = some t ∧ P (h + 1) t := by
  obtain ⟨k, hk⟩ : ∃ k, (h + 1 - l).toNat = k := ⟨_, rfl⟩
  induction k generalizing l s with
  | zero =>
    obtain rfl : l = h + 1 := by omega
    exact ⟨s, by rw [forUp, up_from_nil (Int.lt_succ h)]; rfl, hs⟩
  | succ k ih =>
    obtain ⟨t, ht, hPt⟩ := hstep l s (Int.le_refl l) (by omega) hs
    obtain ⟨u, hu, hPu⟩ := ih (by omega) hPt (fun i s hi => hstep i s (by omega)) (by omega)
    refine ⟨u, ?_, hPu⟩
    rw [forUp, up_from_cons (by omega), List.foldlM_cons, ht]
    exact hu

theorem for_down_rule (hle : l ≤ h + 1) (hs : P h s)
    (hstep : ∀ i s, l ≤ i → i ≤ h → P i s → ∃ t, f i s = some t ∧ P (i - 1) t) :
    ∃ t, forDown h l f s = some t ∧ P (l - 1) t := by
  obtain ⟨k, hk⟩ : ∃ k, (h + 1 - l).toNat = k := ⟨_, rfl⟩
  induction k generalizing h s with
  | zero =>
    obtain rfl : l = h + 1 := by omega
    exact ⟨s, by rw [forDown, up_from_nil (Int.lt_succ h)]; rfl, by rwa [Int.add_sub_cancel]⟩
  | succ k ih =>
    obtain ⟨t, ht, hPt⟩ := hstep h s (by omega) (Int.le_refl h) hs
    obtain ⟨u, hu, hPu⟩ := ih (by omega) hPt (fun i s hi hih => hstep i s hi (by omega)) (by omega)
    refine ⟨u, ?_, hPu⟩
    rw [forDown, up_from_concat (by omega), List.reverse_append, List.reverse_singleton,
      List.singleton_append, List.foldlM_cons, ht]
    exact hu

end Loops

section Rearranging

variable {a b c : ℤ → α} {l m h i j : ℤ}

theorem cells_append (hl : l ≤ m + 1) (hm : m ≤ h) :
    cells a l h = cells a l m ++ cells a (m + 1) h := by
  rw [cells, up_from_append hl hm, List.map_append]
  rfl

theorem cells_congr (hab : ∀ i, l ≤ i → i ≤ h → b i = a i) : cells b l h = cells a l h := by
  refine List.map_congr_left fun i hi => ?_
  obtain ⟨hl, hh⟩ := mem_up_from.mp hi
  exact hab i hl hh

theorem rearranged_refl (a : ℤ → α) (l h : ℤ) : Rearranged a a l h :=
  ⟨fun _ _ => rfl, List.Perm.refl _⟩

theorem Rearranged.trans (hab : Rearranged a b l h) (hbc : Rearranged b c l h) :
    Rearranged a c l h :=
  ⟨fun i hi => (hbc.outside i hi).trans (hab.outside i hi), hbc.perm.trans hab.perm⟩

theorem rearranged_swap (hli : l ≤ i) (hih : i ≤ h) (hlj : l ≤ j) (hjh : j ≤ h) :
    Rearranged a (a ∘ Equiv.swap i j) l h := by
  have hmem : ∀ k, l ≤ k ∧ k ≤ h ↔ l ≤ Equiv.swap i j k ∧ Equiv.swap i j k ≤ h := by
    intro k
    by_cases hki : k = i
    · subst hki
      rw [Equiv.swap_apply_left]
      omega
    · by_cases hkj : k = j
      · subst hkj
        rw [Equiv.swap_apply_right]
        omega
      · rw [Equiv.swap_apply_of_ne_of_ne hki hkj]
  constructor
  · intro k hk
    rw [Function.comp_apply, Equiv.swap_apply_of_ne_of_ne (by omega) (by omega)]
  · rw [cells, cells, ← List.map_map]
    refine List.Perm.map a ?_
    rw [List.perm_ext_iff_of_nodup (up_from_nodup.map (Equiv.swap i j).injective) up_from_nodup]
    intro k
    rw [List.mem_map, mem_up_from]
    constructor
    · rintro ⟨k', hk', rfl⟩
      exact (hmem k').mp (mem_up_from.mp hk')
    · intro hk
      refine ⟨Equiv.swap i j k, mem_up_from.mpr ((hmem k).mp hk), Equiv.swap_apply_self i j k⟩

theorem Rearranged.mono {l' h' : ℤ} (hab : Rearranged a b l h) (hl : l' ≤ l) (hh : h ≤ h') :
    Rearranged a b l' h' := by
  refine ⟨fun i hi => hab.outside i (by omega), ?_⟩
  by_cases hle : l ≤ h
  · have hsplit : ∀ c : ℤ → α,
        cells c l' h' = cells c l' (l - 1) ++ (cells c l h ++ cells c (h + 1) h') := by
      intro c
      rw [cells_append (m := l - 1) (by omega) (by omega), Int.sub_add_cancel,
        cells_append (l := l) (m := h) (by omega) hh]
    rw [hsplit, hsplit, cells_congr (a := a) (b := b) fun i _ hi => hab.outside i (by omega),
      cells_congr (a := a) (b := b) (l := h + 1) fun i hi _ => hab.outside i (by omega)]
    exact (hab.perm.append_right _).append_left _
  · rw [cells_congr (a := a) fun i _ _ => hab.outside i (by omega)]

/-- What holds of all the elements of a range does so in any order. -/
theorem Rearranged.forall {P : α → Prop} (hab : Rearranged a b l h)
    (ha : ∀ i, l ≤ i → i ≤ h → P (a i)) : ∀ i, l ≤ i → i ≤ h → P (b i) := by
  intro i hl hh
  have hi : b i ∈ cells b l h := List.mem_map_of_mem (mem_up_from.mpr ⟨hl, hh⟩)
  obtain ⟨j, hj, hji⟩ := List.mem_map.mp (hab.perm.mem_iff.mp hi)
  obtain ⟨hlj, hjh⟩ := mem_up_from.mp hj
  exact hji ▸ ha j hlj hjh

variable [LinearOrder α]

theorem sorted_glue (hleft : SortedOn a l (m - 1)) (hright : SortedOn a m h)
    (hacross : ∀ i j, l ≤ i → i < m → m ≤ j → j ≤ h → a i ≤ a j) : SortedOn a l h := by
  intro i j hi hij hj
  by_cases hjm : j < m
  · exact hleft i j hi hij (by omega)
  · by_cases him : i < m
    · exact hacross i j hi him (by omega) hj
    · exact hright i j (by omega) hij hj

theorem sorted_short (hle : h ≤ l) : SortedOn a l h := fun _ _ hi hij hj =>
  le_of_eq (congrArg a (by omega))

theorem sorted_congr (hab : ∀ i, l ≤ i → i ≤ h → b i = a i) (ha : SortedOn a l h) :
    SortedOn b l h := by
  intro i j hi hij hj
  rw [hab i hi (by omega), hab j (by omega) hj]
  exact ha i j hi hij hj

theorem pairwise_of_sorted (ha : SortedOn a l h) : (cells a l h).Pairwise (· ≤ ·) := by
  rw [cells, List.pairwise_map, upFrom, List.pairwise_map]
  refine List.pairwise_lt_range.imp_of_mem fun {j k} hj hk hjk => ?_
  have := List.mem_range.mp hk
  exact ha _ _ (by omega) (by omega) (by omega)

/-- There is only one way to sort a range. -/
theorem sorted_unique (hb : SortedOn b l h) (hc : SortedOn c l h) (hab : Rearranged a b l h)
    (hac : Rearranged a c l h) : b = c := by
  have hcells : cells b l h = cells c l h :=
    (hab.perm.trans hac.perm.symm).eq_of_pairwise (fun _ _ _ _ h₁ h₂ => le_antisymm h₁ h₂)
      (pairwise_of_sorted hb) (pairwise_of_sorted hc)
  funext i
  by_cases hi : l ≤ i ∧ i ≤ h
  · exact List.map_inj_left.mp hcells i (mem_up_from.mpr hi)
  · rw [hab.outside i (by omega), hac.outside i (by omega)]

end Rearranging

end ArrayRanges
