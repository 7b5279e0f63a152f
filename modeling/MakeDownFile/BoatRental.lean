import Mathlib
import MakeDownFile.SortedMatchings

/-! # Renting boats

Members of a team rent boats from their own money, and a common fund pays what is missing. Both
programs sort the money and the prices. -/
namespace BoatRental

open SortedMatchings

/-- Arithmetic of 32 bits. -/
def int (x : ℤ) : ℤ := Int.bmod x (2 ^ 32)

def sort (l : List ℤ) : List ℤ := l.insertionSort (· ≤ ·)

/-- What is left in the fund when somebody with the money `x.1` rents a boat of the price `x.2`. -/
def pay (S : ℤ) (x : ℤ × ℤ) : ℤ :=
  let need := int (x.1 - x.2)
  if need < 0 then int (S + need) else S

/-- Whether everybody can rent a boat: the poorest takes the cheapest. -/
def isAll (n m : List ℤ) (S : ℤ) : Bool :=
  if n.length > m.length then false
  else
    0 ≤ ((sort n).zip (sort m)).foldl pay S

def canFrom (n m : List ℤ) : ℕ → ℕ → ℤ → Option Bool
  | 0, _, _ => some true
  | _ + 1, 0, _ => none
  | i + 1, j + 1, tmpS => do
    let money ← n[j]?
    let price ← m[i]?
    let tmpS := if money < price then int (tmpS - int (price - money)) else tmpS
    if tmpS < 0 then some false else canFrom n m i j tmpS

/-- There is nothing to do for a count that is not positive. -/
def can (n m : List ℤ) (S count : ℤ) : Option Bool := canFrom n m count.toNat n.length S

def search (can : ℤ → Option Bool) : ℕ → ℤ → ℤ → Option ℤ
  | 0, _, _ => none
  | fuel + 1, l, r =>
    if l < r then
      let mid := int (int (l + r) + 1) / 2
      match can mid with
      | none => none
      | some true => search can fuel mid r
      | some false => search can fuel l (int (mid - 1))
    else some l

def isAllMost (fuel : ℕ) (n m : List ℤ) (S : ℤ) : Option (ℤ × ℤ) := do
  let l ← search (can (sort n) (sort m) S) fuel 0 m.length
  some (l, ((sort m).take l.toNat).foldl (fun ans price => int (ans + price)) 0)

def gap (money price : ℤ) : ℤ := max 0 (price - money)

/-- Some `k` members rent `k` boats of the price `total`. -/
def Rents (n m : List ℤ) (S : ℤ) (k : ℕ) (total : ℤ) : Prop :=
  ∃ people boats, people.Subperm n ∧ boats.Subperm m ∧ people.length = k ∧ boats.length = k ∧
    cost gap people boats ≤ S ∧ boats.sum = total

theorem int_eq {x : ℤ} (h : -2 ^ 31 ≤ x) (h' : x < 2 ^ 31) : int x = x := by
  apply Int.bmod_eq_of_le <;> omega

section Gap

theorem gap_uncrossed : Uncrossed gap := by
  intro x x' y y' hx hy
  simp only [gap]
  omega

theorem gap_mono (money : ℤ) : Monotone (gap money) := by
  intro p q hpq
  simp only [gap]
  omega

theorem gap_anti (price : ℤ) : Antitone (gap · price) := by
  intro p q hpq
  simp only [gap]
  omega

theorem cost_nonneg (a b : List ℤ) : 0 ≤ cost gap a b := by
  apply List.sum_nonneg
  intro x hx
  obtain ⟨i, hi, rfl⟩ := List.getElem_of_mem hx
  rw [List.getElem_zipWith]
  exact le_max_left 0 _

theorem cost_le_sum {a b : List ℤ} (ha : ∀ x ∈ a, 0 ≤ x) (hb : ∀ x ∈ b, 0 ≤ x) :
    cost gap a b ≤ b.sum := by
  induction b generalizing a with
  | nil => rw [cost_nil, List.sum_nil]
  | cons y b ih =>
    cases a with
    | nil => exact List.sum_nonneg hb
    | cons x a =>
      have hrest := ih (fun z hz => ha z (List.mem_cons_of_mem x hz))
        fun z hz => hb z (List.mem_cons_of_mem y hz)
      have hx := ha x List.mem_cons_self
      have hy := hb y List.mem_cons_self
      rw [cost_cons, List.sum_cons]
      simp only [gap]
      omega

theorem cost_take_le (a b : List ℤ) (k : ℕ) : cost gap (a.take k) (b.take k) ≤ cost gap a b := by
  induction k generalizing a b with
  | zero => exact cost_nonneg a b
  | succ k ih =>
    cases a with
    | nil => exact le_refl _
    | cons x a =>
      cases b with
      | nil => exact le_refl _
      | cons y b =>
        rw [List.take_succ_cons, List.take_succ_cons, cost_cons, cost_cons]
        exact Int.add_le_add_left (ih a b) _

end Gap

section Everybody

/-- The fold pays all gaps, as long as its numbers are ints. -/
theorem fold_gaps {a b : List ℤ} {S : ℤ} (ha : ∀ x ∈ a, 0 ≤ x ∧ x < 2 ^ 31)
    (hb : ∀ x ∈ b, 0 ≤ x ∧ x < 2 ^ 31) (hS : S < 2 ^ 31) (hcost : -2 ^ 31 ≤ S - cost gap a b) :
    (a.zip b).foldl pay S = S - cost gap a b := by
  induction b generalizing a S with
  | nil => rw [List.zip_nil_right, List.foldl_nil, cost_nil, Int.sub_zero]
  | cons y b ih =>
    cases a with
    | nil => exact (Int.sub_zero S).symm
    | cons x a =>
      have hx := ha x List.mem_cons_self
      have hy := hb y List.mem_cons_self
      have hrest := cost_nonneg a b
      rw [cost_cons] at hcost ⊢
      have hgap : 0 ≤ gap x y := le_max_left 0 _
      have hstep : pay S (x, y) = S - gap x y := by
        simp only [pay]
        rw [int_eq (by omega) (by omega)]
        by_cases hlt : x - y < 0
        · have hg : gap x y = y - x := max_eq_right (by omega)
          rw [if_pos hlt, hg, int_eq (by omega) (by omega)]
          omega
        · have hg : gap x y = 0 := max_eq_left (by omega)
          rw [if_neg hlt, hg, Int.sub_zero]
      rw [List.zip_cons_cons, List.foldl_cons, hstep,
        ih (fun z hz => ha z (List.mem_cons_of_mem x hz))
          (fun z hz => hb z (List.mem_cons_of_mem y hz)) (by omega) (by omega)]
      omega

/-- What the programs are given: ints, prices whose sum is an int, and money in the fund. -/
structure Sane (n m : List ℤ) (S : ℤ) : Prop where
  money : ∀ x ∈ n, 0 ≤ x ∧ x < 2 ^ 31
  price : ∀ x ∈ m, 0 ≤ x
  total : m.sum < 2 ^ 31
  fund : 0 ≤ S ∧ S < 2 ^ 31

variable {n m b : List ℤ} {S : ℤ} {k : ℕ}

theorem sort_perm (l : List ℤ) : (sort l).Perm l := List.perm_insertionSort _ l

theorem sort_length (l : List ℤ) : (sort l).length = l.length := (sort_perm l).length_eq

theorem sum_le_of_subperm (hm : ∀ x ∈ m, 0 ≤ x) (h : b.Subperm m) : b.sum ≤ m.sum := by
  obtain ⟨c, hbc, hcm⟩ := h
  rw [← hbc.sum_eq]
  exact hcm.sum_le_sum hm

theorem Sane.price_lt (h : Sane n m S) (x : ℤ) (hx : x ∈ m) : 0 ≤ x ∧ x < 2 ^ 31 := by
  have hle := sum_le_of_subperm h.price (List.singleton_subperm_iff.mpr hx)
  rw [List.sum_singleton] at hle
  exact ⟨h.price x hx, hle.trans_lt h.total⟩

theorem Sane.sort (h : Sane n m S) : Sane (sort n) (sort m) S :=
  ⟨fun x hx => h.money x ((sort_perm n).mem_iff.mp hx),
    fun x hx => h.price x ((sort_perm m).mem_iff.mp hx),
    by rw [(sort_perm m).sum_eq]; exact h.total, h.fund⟩

theorem is_all_iff (h : Sane n m S) : isAll n m S = true ↔
    ∃ boats, boats.Subperm m ∧ boats.length = n.length ∧ cost gap n boats ≤ S := by
  unfold isAll
  by_cases hlen : n.length > m.length
  · rw [if_pos hlen]
    refine iff_of_false Bool.false_ne_true fun ⟨boats, hsub, hb, _⟩ => ?_
    have hle := hsub.length_le
    omega
  · rw [if_neg hlen]
    have hsort := h.sort
    have hle : (sort n).length ≤ (sort m).length := by
      rw [sort_length, sort_length]
      omega
    have hpaid := (cost_le_sum (fun x hx => (hsort.money x hx).1) hsort.price).trans_lt hsort.total
    have hfund := h.fund
    rw [fold_gaps hsort.money hsort.price_lt hfund.2 (by omega), decide_eq_true_iff, Int.sub_nonneg,
      ← cost_take hle, sort_length]
    constructor
    · intro hcost
      obtain ⟨boats, hboats, heq⟩ := exists_perm_cost_eq (f := gap) (b := (sort m).take n.length)
        (sort_perm n) (by rw [sort_length, List.length_take, sort_length]; omega)
      refine ⟨boats, ?_, ?_, by rw [heq]; exact hcost⟩
      · exact hboats.subperm.trans ((List.take_sublist _ _).subperm.trans (sort_perm m).subperm)
      · rw [hboats.length_eq, List.length_take, sort_length]
        omega
    · intro ⟨boats, hsub, hb, hcost⟩
      have hgreedy := greedy_cost_le gap_uncrossed gap_mono gap_anti (List.Subperm.refl n) hsub
        hb.symm
      rw [Nat.sub_self, List.drop_zero, hb] at hgreedy
      exact hgreedy.trans hcost

theorem sane_sample : Sane [2, 5, 1] [4, 3, 7] 3 :=
  ⟨by decide, by decide, by decide, by decide⟩

theorem is_all_sample : isAll [2, 5, 1] [4, 3, 7] 3 = true ↔
    ∃ boats : List ℤ, boats.Subperm [4, 3, 7] ∧ boats.length = 3 ∧ cost gap [2, 5, 1] boats ≤ 3 :=
  is_all_iff sane_sample

end Everybody

section Most

variable {n m : List ℤ} {S : ℤ} {k : ℕ}

/-- The cheapest `i` boats go to the richest of the first `j` people, of whom there are enough. -/
theorem can_from_eq {i j : ℕ} (h : Sane n m S) (hij : i ≤ j) (hi : i ≤ m.length)
    (hj : j ≤ n.length) :
    canFrom n m i j S = some (decide (cost gap ((n.take j).drop (j - i)) (m.take i) ≤ S)) := by
  induction i generalizing j S with
  | zero =>
    rw [canFrom, List.take_zero, cost_nil, decide_eq_true h.fund.1]
  | succ i ih =>
    cases j with
    | zero => cases hij
    | succ j =>
      have hx := h.money n[j] (List.getElem_mem _)
      have hy := h.price_lt m[i] (List.getElem_mem _)
      have hS := h.fund
      have hcost : cost gap ((n.take (j + 1)).drop (j + 1 - (i + 1))) (m.take (i + 1)) =
          cost gap ((n.take j).drop (j - i)) (m.take i) + gap n[j] m[i] := by
        rw [List.take_succ_eq_append_getElem (by omega),
          List.take_succ_eq_append_getElem (by omega), Nat.add_sub_add_right,
          List.drop_append_of_le_length (by rw [List.length_take]; omega),
          cost_append (by rw [List.length_drop, List.length_take, List.length_take]; omega),
          cost_cons, cost_nil, Int.add_zero]
      have hstep : (if n[j] < m[i] then int (S - int (m[i] - n[j])) else S) =
          S - gap n[j] m[i] := by
        by_cases hlt : n[j] < m[i]
        · have hg : gap n[j] m[i] = m[i] - n[j] := max_eq_right (by omega)
          rw [if_pos hlt, hg, int_eq (x := m[i] - n[j]) (by omega) (by omega),
            int_eq (by omega) (by omega)]
        · have hg : gap n[j] m[i] = 0 := max_eq_left (by omega)
          rw [if_neg hlt, hg, Int.sub_zero]
      have hrest := cost_nonneg ((n.take j).drop (j - i)) (m.take i)
      rw [canFrom, List.getElem?_eq_getElem (by omega), List.getElem?_eq_getElem (by omega), hcost]
      simp only [Option.bind_eq_bind, Option.bind_some, hstep]
      by_cases hneg : S - gap n[j] m[i] < 0
      · rw [if_pos hneg, decide_eq_false (by omega)]
      · rw [if_neg hneg]
        have hgap : 0 ≤ gap n[j] m[i] := le_max_left 0 _
        have hsane : Sane n m (S - gap n[j] m[i]) :=
          ⟨h.money, h.price, h.total, by omega, by omega⟩
        rw [ih hsane (by omega) (by omega) (by omega)]
        congr 2
        apply propext
        omega

/-- The search finds the last number of a set that is closed downwards. -/
theorem search_finds {can : ℤ → Option Bool} {P : ℕ → Prop} [DecidablePred P] {l r fuel : ℕ}
    (hint : r < 2 ^ 30) (hcan : ∀ k ≤ r, can k = some (decide (P k)))
    (hdown : ∀ k k', k ≤ k' → P k' → P k) (hl : P l) (hle : l ≤ r) (hfuel : r - l < fuel) :
    ∃ k : ℕ, search can fuel l r = some (k : ℤ) ∧ P k ∧ k ≤ r ∧ ∀ k' ≤ r, P k' → k' ≤ k := by
  induction fuel generalizing l r with
  | zero => omega
  | succ fuel ih =>
    rw [search]
    by_cases hlr : l < r
    · obtain ⟨mid, hmid⟩ : ∃ mid, mid = (l + r + 1) / 2 := ⟨_, rfl⟩
      have hsum : int (int ((l : ℤ) + r) + 1) / 2 = (mid : ℤ) := by
        rw [int_eq (x := (l : ℤ) + r) (by omega) (by omega), int_eq (by omega) (by omega)]
        omega
      have hbelow : int ((mid : ℤ) - 1) = ((mid - 1 : ℕ) : ℤ) := by
        rw [int_eq (by omega) (by omega)]
        omega
      rw [if_pos (by omega)]
      simp only [hsum, hbelow, hcan mid (by omega)]
      by_cases hP : P mid
      · rw [decide_eq_true hP]
        exact ih hint hcan hP (by omega) (by omega)
      · rw [decide_eq_false hP]
        obtain ⟨k, hk, hPk, hkr, hmax⟩ := ih (r := mid - 1) (by omega)
          (fun k hk => hcan k (by omega)) hl (by omega) (by omega)
        refine ⟨k, hk, hPk, by omega, fun k' hk' hPk' => ?_⟩
        by_cases hlow : k' ≤ mid - 1
        · exact hmax k' hlow hPk'
        · exact absurd (hdown mid k' (by omega) hPk') hP
    · rw [if_neg (by omega)]
      exact ⟨l, rfl, hl, hle, fun k' hk' _ => by omega⟩

theorem rents_greedy {total : ℤ} (h : Rents n m S k total) :
    cost gap ((sort n).drop (n.length - k)) ((sort m).take k) ≤ S := by
  obtain ⟨people, boats, hn, hm, hp, hb, hcost, _⟩ := h
  have hgreedy := greedy_cost_le gap_uncrossed gap_mono gap_anti hn hm (hp.trans hb.symm)
  rw [hp, hb] at hgreedy
  exact hgreedy.trans hcost

theorem rents_of_greedy (hkn : k ≤ n.length) (hkm : k ≤ m.length)
    (h : cost gap ((sort n).drop (n.length - k)) ((sort m).take k) ≤ S) :
    Rents n m S k ((sort m).take k).sum := by
  refine ⟨_, _, (List.drop_sublist _ _).subperm.trans (sort_perm n).subperm,
    (List.take_sublist _ _).subperm.trans (sort_perm m).subperm, ?_, ?_, h, rfl⟩
  · rw [List.length_drop, sort_length]
    omega
  · rw [List.length_take, sort_length]
    omega

theorem rents_fewer {k' : ℕ} {total : ℤ} (hle : k ≤ k') (h : Rents n m S k' total) :
    ∃ total', Rents n m S k total' := by
  obtain ⟨people, boats, hn, hm, hp, hb, hcost, _⟩ := h
  refine ⟨_, people.take k, boats.take k, (List.take_sublist _ _).subperm.trans hn,
    (List.take_sublist _ _).subperm.trans hm, ?_, ?_, (cost_take_le _ _ k).trans hcost, rfl⟩
  · rw [List.length_take]
    omega
  · rw [List.length_take]
    omega

/-- No boats of that number are cheaper than the cheapest. -/
theorem cheapest_sum_le {boats : List ℤ} (hm : boats.Subperm m) (hb : boats.length = k) :
    ((sort m).take k).sum ≤ boats.sum := by
  have hsub : (sort boats).Sublist (sort m) := List.sublist_insertionSort'
    (List.pairwise_insertionSort _ boats) ((sort_perm boats).subperm.trans hm)
  have hle := take_le_sublist hsub (List.pairwise_insertionSort _ m)
  rw [sort_length, hb] at hle
  rw [← (sort_perm boats).sum_eq]
  exact hle.sum_le_sum

theorem fold_sum {b : List ℤ} {ans : ℤ} (hb : ∀ x ∈ b, 0 ≤ x) (hans : 0 ≤ ans)
    (hsum : ans + b.sum < 2 ^ 31) :
    b.foldl (fun ans price => int (ans + price)) ans = ans + b.sum := by
  induction b generalizing ans with
  | nil => rw [List.foldl_nil, List.sum_nil, Int.add_zero]
  | cons x b ih =>
    have hx := hb x List.mem_cons_self
    have hrest := List.sum_nonneg fun y hy => hb y (List.mem_cons_of_mem x hy)
    rw [List.sum_cons] at hsum ⊢
    rw [List.foldl_cons, int_eq (by omega) (by omega),
      ih (fun y hy => hb y (List.mem_cons_of_mem x hy)) (by omega) (by omega)]
    omega

def Affordable (n m : List ℤ) (S : ℤ) (k : ℕ) : Prop :=
  k ≤ m.length ∧ cost gap ((sort n).drop (n.length - k)) ((sort m).take k) ≤ S

instance : DecidablePred (Affordable n m S) := fun k =>
  inferInstanceAs (Decidable (k ≤ m.length ∧ _))

theorem can_eq (h : Sane n m S) (hlen : m.length ≤ n.length) (hk : k ≤ m.length) :
    can (sort n) (sort m) S (k : ℤ) = some (decide (Affordable n m S k)) := by
  have hfrom := can_from_eq (i := k) (j := n.length) h.sort (by omega)
    (by rw [sort_length]; exact hk) (by rw [sort_length])
  rw [can, Int.toNat_natCast, sort_length, hfrom, List.take_of_length_le (by rw [sort_length])]
  simp only [Affordable, hk, true_and]

theorem affordable_fewer {k' : ℕ} (hlen : m.length ≤ n.length) (hle : k ≤ k')
    (h : Affordable n m S k') : Affordable n m S k := by
  obtain ⟨hk', hcost⟩ := h
  obtain ⟨total, hrents⟩ := rents_fewer hle (rents_of_greedy (hk'.trans hlen) hk' hcost)
  exact ⟨hle.trans hk', rents_greedy hrents⟩

theorem most_found (h : Sane n m S) (hlen : m.length ≤ n.length) (hint : m.length < 2 ^ 30) :
    ∃ k, Affordable n m S k ∧ (∀ k', Affordable n m S k' → k' ≤ k) ∧
      ∀ fuel, m.length < fuel →
        search (can (sort n) (sort m) S) fuel 0 m.length = some (k : ℤ) := by
  have hzero : Affordable n m S 0 := by
    refine ⟨Nat.zero_le _, ?_⟩
    rw [List.take_zero, cost_nil]
    exact h.fund.1
  have hfound : ∀ fuel, m.length < fuel → ∃ k : ℕ,
      search (can (sort n) (sort m) S) fuel 0 m.length = some (k : ℤ) ∧ Affordable n m S k ∧
        k ≤ m.length ∧ ∀ k' ≤ m.length, Affordable n m S k' → k' ≤ k := fun fuel hfuel =>
    search_finds (l := 0) hint (fun k hk => can_eq h hlen hk) (fun _ _ => affordable_fewer hlen)
      hzero (Nat.zero_le _) (by omega)
  obtain ⟨k, -, hk, -, hmax⟩ := hfound (m.length + 1) (Nat.lt_succ_self _)
  refine ⟨k, hk, fun k' hk' => hmax k' hk'.1 hk', fun fuel hfuel => ?_⟩
  obtain ⟨k', hsearch, hk', -, hmax'⟩ := hfound fuel hfuel
  obtain rfl : k' = k := Nat.le_antisymm (hmax k' hk'.1 hk') (hmax' k hk.1 hk)
  exact hsearch

/-- With no more boats than members, and less than 2 ^ 30 of them, the most boats that the fund
can pay for are found, and the least that they cost. -/
theorem is_all_most_best (h : Sane n m S) (hlen : m.length ≤ n.length)
    (hint : m.length < 2 ^ 30) :
    ∃ (k : ℕ) (ans : ℤ), (∀ fuel, m.length < fuel → isAllMost fuel n m S = some (↑k, ans)) ∧
      Rents n m S k ans ∧ ∀ k' total, Rents n m S k' total → k' < k ∨ k' = k ∧ ans ≤ total := by
  obtain ⟨k, ⟨hkm, hcost⟩, hmax, hfound⟩ := most_found h hlen hint
  have hprices : ∀ x ∈ (sort m).take k, 0 ≤ x := fun x hx =>
    h.sort.price x (List.mem_of_mem_take hx)
  have htotal := (sum_le_of_subperm h.sort.price (List.take_sublist k (sort m)).subperm).trans_lt
    h.sort.total
  refine ⟨k, ((sort m).take k).sum, fun fuel hfuel => ?_,
    rents_of_greedy (hkm.trans hlen) hkm hcost, fun k' total hrents => ?_⟩
  · rw [isAllMost, hfound fuel hfuel]
    simp only [Option.bind_eq_bind, Option.bind_some, Int.toNat_natCast]
    rw [fold_sum hprices (le_refl 0) (by omega), Int.zero_add]
  · have hgreedy := rents_greedy hrents
    obtain ⟨people, boats, _, hm, _, hb, _, hsum⟩ := hrents
    have hle := hmax k' ⟨hb ▸ hm.length_le, hgreedy⟩
    rcases Nat.eq_or_lt_of_le hle with heq | hlt
    · right
      rw [← hsum]
      exact ⟨heq, cheapest_sum_le hm (hb.trans heq)⟩
    · exact Or.inl hlt

theorem is_all_most_sample : ∃ (k : ℕ) (ans : ℤ),
    (∀ fuel, 3 < fuel → isAllMost fuel [2, 5, 1] [4, 3, 7] 3 = some (↑k, ans)) ∧
    Rents [2, 5, 1] [4, 3, 7] 3 k ans ∧
      ∀ k' total, Rents [2, 5, 1] [4, 3, 7] 3 k' total → k' < k ∨ k' = k ∧ ans ≤ total :=
  is_all_most_best sane_sample (by decide) (by decide)

end Most

end BoatRental
