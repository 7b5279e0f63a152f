import Mathlib.Data.List.Basic
import Mathlib.Logic.Function.Basic

/-! # The longest palindrome

longestPalindrome fills a table of the palindromes of a string, the short ones first, and
remembers the first of the longest. -/
namespace Palindromes

variable {α : Type} [DecidableEq α]

/-- The lengths of the palindromes from `j` to `k`, and the best one so far. -/
structure Table where
  flag : ℕ → ℕ → ℕ
  maxres : ℕ
  idx : ℕ

def entry (s : List α) (flag : ℕ → ℕ → ℕ) (j k : ℕ) : ℕ :=
  if k = j then 1
  else if s[k]? = s[j]? ∧ j + 1 = k then 2
  else if s[k]? = s[j]? ∧ flag (j + 1) (k - 1) > 0 then flag (j + 1) (k - 1) + 2
  else 0

def visit (s : List α) (j k : ℕ) (t : Table) : Table :=
  let v := entry s t.flag j k
  { flag := Function.update t.flag j (Function.update (t.flag j) k v)
    maxres := if v > t.maxres then v else t.maxres
    idx := if v > t.maxres then j else t.idx }

def diagonal (s : List α) (i : ℕ) (t : Table) : Table :=
  (List.range (s.length - i)).foldl (fun t j => visit s j (j + i) t) t

def fill (s : List α) : Table :=
  (List.range s.length).foldl (fun t i => diagonal s i t) ⟨fun _ _ => 0, 0, 0⟩

def longestPalindrome (s : List α) : List α :=
  let t := fill s
  (s.drop t.idx).take t.maxres

def Mirrored (s : List α) (j k : ℕ) : Prop := ∀ x, j ≤ x → x ≤ k → s[x]? = s[j + k - x]?

section Mirrored

omit [DecidableEq α]

variable {s : List α} {i j k : ℕ}

theorem mirrored_self (s : List α) (j : ℕ) : Mirrored s j j := by
  intro x hj hk
  obtain rfl : x = j := by omega
  rw [Nat.add_sub_cancel]

theorem mirrored_pair : Mirrored s j (j + 1) ↔ s[j + 1]? = s[j]? := by
  constructor
  · intro h
    have hj := h (j + 1) (by omega) (Nat.le_refl _)
    rwa [Nat.add_sub_cancel] at hj
  · intro h x hj hk
    rcases Nat.eq_or_lt_of_le hj with rfl | hlt
    · rw [Nat.add_sub_cancel_left, h]
    · obtain rfl : x = j + 1 := by omega
      rw [Nat.add_sub_cancel, h]

theorem mirrored_inside (h : j + 2 ≤ k) :
    Mirrored s j k ↔ s[k]? = s[j]? ∧ Mirrored s (j + 1) (k - 1) := by
  have hsum : j + 1 + (k - 1) = j + k := by omega
  constructor
  · intro hm
    refine ⟨?_, fun x hj hk => ?_⟩
    · have hk := hm k (by omega) (Nat.le_refl k)
      rwa [Nat.add_sub_cancel] at hk
    · have hx := hm x (by omega) (by omega)
      rwa [← hsum] at hx
  · intro ⟨hends, hm⟩ x hj hk
    by_cases hxj : x = j
    · rw [hxj, Nat.add_sub_cancel_left, hends]
    · by_cases hxk : x = k
      · rw [hxk, Nat.add_sub_cancel, hends]
      · have hx := hm x (by omega) (by omega)
        rwa [hsum] at hx

end Mirrored

/-- The part from `j` on with `i + 1` characters has been visited before diagonal `d` has got
to `c`. -/
def Visited (s : List α) (d c j i : ℕ) : Prop := i < d ∧ j + i < s.length ∨ i = d ∧ j < c

/-- The table up to there: its entries are lengths of palindromes, and the best is the first of
the longest. -/
structure Filled (s : List α) (d c : ℕ) (t : Table) : Prop where
  palindrome : ∀ j i, Visited s d c j i → Mirrored s j (j + i) → t.flag j (j + i) = i + 1
  other : ∀ j i, Visited s d c j i → ¬ Mirrored s j (j + i) → t.flag j (j + i) = 0
  best : 0 < t.maxres → Mirrored s t.idx (t.idx + t.maxres - 1) ∧ t.idx + t.maxres ≤ s.length ∧
    Visited s d c t.idx (t.maxres - 1)
  least : ∀ j i, Visited s d c j i → Mirrored s j (j + i) →
    i + 1 < t.maxres ∨ i + 1 = t.maxres ∧ t.idx ≤ j

section Filled

variable {s : List α} {d c j i : ℕ} {t : Table}

omit [DecidableEq α] in
theorem visited_inside (hc : c + d < s.length) (hd : 2 ≤ d) : Visited s d c (c + 1) (d - 2) :=
  Or.inl ⟨by omega, by omega⟩

theorem entry_palindrome (h : Filled s d c t) (hc : c + d < s.length)
    (hm : Mirrored s c (c + d)) : entry s t.flag c (c + d) = d + 1 := by
  unfold entry
  by_cases h0 : d = 0
  · rw [if_pos (by omega), h0]
  · rw [if_neg (by omega)]
    by_cases h1 : d = 1
    · rw [h1] at hm ⊢
      rw [if_pos ⟨mirrored_pair.mp hm, rfl⟩]
    · rw [if_neg (by omega)]
      obtain ⟨hends, hinside⟩ := (mirrored_inside (by omega)).mp hm
      have hplace : c + d - 1 = c + 1 + (d - 2) := by omega
      rw [hplace] at hinside ⊢
      rw [h.palindrome _ _ (visited_inside hc (by omega)) hinside, if_pos ⟨hends, by omega⟩]
      omega

theorem entry_other (h : Filled s d c t) (hc : c + d < s.length)
    (hm : ¬ Mirrored s c (c + d)) : entry s t.flag c (c + d) = 0 := by
  have h0 : d ≠ 0 := fun h0 => by
    rw [h0] at hm
    exact hm (mirrored_self s c)
  unfold entry
  rw [if_neg (by omega)]
  by_cases hends : s[c + d]? = s[c]?
  · have h1 : d ≠ 1 := fun h1 => by
      rw [h1] at hm hends
      exact hm (mirrored_pair.mpr hends)
    have hplace : c + d - 1 = c + 1 + (d - 2) := by omega
    have hinside : ¬ Mirrored s (c + 1) (c + 1 + (d - 2)) := fun hi => by
      rw [← hplace] at hi
      exact hm ((mirrored_inside (by omega)).mpr ⟨hends, hi⟩)
    rw [if_neg (by omega), hplace, h.other _ _ (visited_inside hc (by omega)) hinside,
      if_neg (by omega)]
  · rw [if_neg fun h => hends h.1, if_neg fun h => hends h.1]

/-- A visit leaves the entries of other parts alone. -/
theorem visit_flag (t : Table) (hne : ¬ (j = c ∧ i = d)) :
    (visit s c (c + d) t).flag j (j + i) = t.flag j (j + i) := by
  simp only [visit]
  by_cases hj : j = c
  · rw [hj, Function.update_self, Function.update_of_ne (by omega)]
  · rw [Function.update_of_ne hj]

theorem visit_flag_self (t : Table) :
    (visit s c (c + d) t).flag c (c + d) = entry s t.flag c (c + d) := by
  simp only [visit, Function.update_self]

omit [DecidableEq α] in
theorem visited_new : Visited s d (c + 1) c d := Or.inr ⟨rfl, Nat.lt_succ_self c⟩

omit [DecidableEq α] in
theorem visited_old (h : Visited s d (c + 1) j i) (hne : ¬ (j = c ∧ i = d)) :
    Visited s d c j i := by
  unfold Visited at *
  omega

omit [DecidableEq α] in
theorem Visited.succ (h : Visited s d c j i) : Visited s d (c + 1) j i := by
  unfold Visited at *
  omega

/-- The entry of a visited part, where the new one is right. -/
theorem visit_entry {n : ℕ} (hv : Visited s d (c + 1) j i)
    (hold : Visited s d c j i → t.flag j (j + i) = n)
    (hnew : j = c → i = d → entry s t.flag c (c + d) = n) :
    (visit s c (c + d) t).flag j (j + i) = n := by
  by_cases heq : j = c ∧ i = d
  · rw [heq.1, heq.2, visit_flag_self, hnew heq.1 heq.2]
  · rw [visit_flag t heq, hold (visited_old hv heq)]

theorem filled_visit (h : Filled s d c t) (hc : c + d < s.length) :
    Filled s d (c + 1) (visit s c (c + d) t) := by
  have hentry : ∀ j i, Visited s d (c + 1) j i → Mirrored s j (j + i) →
      (visit s c (c + d) t).flag j (j + i) = i + 1 := by
    intro j i hv hm
    refine visit_entry hv (fun hv => h.palindrome j i hv hm) fun hj hi => ?_
    rw [hj, hi] at hm
    rw [entry_palindrome h hc hm, hi]
  have hother : ∀ j i, Visited s d (c + 1) j i → ¬ Mirrored s j (j + i) →
      (visit s c (c + d) t).flag j (j + i) = 0 := by
    intro j i hv hm
    refine visit_entry hv (fun hv => h.other j i hv hm) fun hj hi => ?_
    rw [hj, hi] at hm
    exact entry_other h hc hm
  by_cases hgt : entry s t.flag c (c + d) > t.maxres
  · -- a better one, as all that were found before are no longer than the best of them
    have hm : Mirrored s c (c + d) := by
      by_contra hm
      rw [entry_other h hc hm] at hgt
      cases hgt
    rw [entry_palindrome h hc hm] at hgt
    refine ⟨hentry, hother, fun _ => ?_, fun j i hv hmi => ?_⟩
    · simp only [visit, entry_palindrome h hc hm, if_pos hgt]
      exact ⟨hm, by omega, visited_new⟩
    · simp only [visit, entry_palindrome h hc hm, if_pos hgt]
      by_cases heq : j = c ∧ i = d
      · exact Or.inr ⟨by omega, by omega⟩
      · have hleast := h.least j i (visited_old hv heq) hmi
        omega
  · refine ⟨hentry, hother, fun hpos => ?_, fun j i hv hmi => ?_⟩
    · simp only [visit, if_neg hgt] at hpos ⊢
      obtain ⟨hm, hlen, hvis⟩ := h.best hpos
      exact ⟨hm, hlen, hvis.succ⟩
    · simp only [visit, if_neg hgt]
      by_cases heq : j = c ∧ i = d
      · rw [heq.1, heq.2] at hmi
        rw [entry_palindrome h hc hmi] at hgt
        have hvis := (h.best (by omega)).2.2
        unfold Visited at hvis
        omega
      · exact h.least j i (visited_old hv heq) hmi

omit [DecidableEq α] in
theorem filled_next (hd : d < s.length) (h : Filled s d (s.length - d) t) :
    Filled s (d + 1) 0 t := by
  have hiff : ∀ j i, Visited s (d + 1) 0 j i ↔ Visited s d (s.length - d) j i := by
    intro j i
    unfold Visited
    omega
  refine ⟨fun j i hv => h.palindrome j i ((hiff j i).mp hv),
    fun j i hv => h.other j i ((hiff j i).mp hv), fun hpos => ?_,
    fun j i hv => h.least j i ((hiff j i).mp hv)⟩
  obtain ⟨hm, hlen, hvis⟩ := h.best hpos
  exact ⟨hm, hlen, (hiff _ _).mpr hvis⟩

omit [DecidableEq α] in
theorem foldl_range_rule {σ : Type} {f : σ → ℕ → σ} {I : ℕ → σ → Prop} {x : σ} (n : ℕ)
    (hx : I 0 x) (hstep : ∀ k < n, ∀ y, I k y → I (k + 1) (f y k)) :
    I n ((List.range n).foldl f x) := by
  induction n with
  | zero => exact hx
  | succ n ih =>
    rw [List.range_succ, List.foldl_append]
    exact hstep n (Nat.lt_succ_self n) _ (ih fun k hk => hstep k (Nat.lt_succ_of_lt hk))

theorem filled_fill (s : List α) : Filled s s.length 0 (fill s) := by
  apply foldl_range_rule (I := fun d t => Filled s d 0 t)
  · refine ⟨fun j i hv => ?_, fun j i hv => ?_, nofun, fun j i hv => ?_⟩
    all_goals
      unfold Visited at hv
      omega
  · intro d hd t h
    apply filled_next hd
    apply foldl_range_rule (I := fun c t => Filled s d c t) _ h
    exact fun c hc t h => filled_visit h (by omega)

end Filled

section Longest

omit [DecidableEq α]

variable {s l a b : List α}

theorem getElem?_reverse_iff : l.reverse = l ↔ ∀ x < l.length, l[x]? = l[l.length - 1 - x]? := by
  constructor
  · intro h x hx
    rw [← List.getElem?_reverse hx, h]
  · intro h
    apply List.ext_getElem?
    intro x
    by_cases hx : x < l.length
    · rw [List.getElem?_reverse hx, h x hx]
    · rw [List.getElem?_eq_none (by rw [List.length_reverse]; omega),
        List.getElem?_eq_none (by omega)]

/-- A palindrome in the string is a part of it that is mirrored. -/
theorem mirrored_iff (hl : l ≠ []) :
    Mirrored (a ++ l ++ b) a.length (a.length + l.length - 1) ↔ l.reverse = l := by
  have hpos := List.length_pos_iff.mpr hl
  have hmiddle : ∀ x < l.length, (a ++ l ++ b)[a.length + x]? = l[x]? := by
    intro x hx
    rw [List.getElem?_append_left (by rw [List.length_append]; omega),
      List.getElem?_append_right (Nat.le_add_right _ _), Nat.add_sub_cancel_left]
  rw [getElem?_reverse_iff]
  constructor
  · intro h x hx
    rw [← hmiddle x hx, ← hmiddle _ (by omega), h (a.length + x) (by omega) (by omega)]
    congr 1
    omega
  · intro h x hj hk
    have hx := h (x - a.length) (by omega)
    rw [← hmiddle _ (by omega), ← hmiddle _ (by omega)] at hx
    rw [Nat.add_sub_cancel' hj] at hx
    rw [hx]
    congr 1
    omega

end Longest

/-- The result is a palindrome in the string, and the first of the longest ones. -/
theorem longest_palindrome_longest (s : List α) :
    (longestPalindrome s).reverse = longestPalindrome s ∧
      ∃ a b, s = a ++ longestPalindrome s ++ b ∧ ∀ a' l b', s = a' ++ l ++ b' → l.reverse = l →
        l.length < (longestPalindrome s).length ∨
          l.length = (longestPalindrome s).length ∧ a.length ≤ a'.length := by
  have h := filled_fill s
  by_cases hs : s = []
  · rw [hs]
    refine ⟨rfl, [], [], rfl, fun a' l b' hparts _ => Or.inr ⟨?_, Nat.zero_le _⟩⟩
    have hlen := congrArg List.length hparts
    rw [List.length_append, List.length_append, List.length_nil] at hlen
    change l.length = 0
    omega
  · -- some part has been found, if only of one character
    have hpos := List.length_pos_iff.mpr hs
    have hfirst := h.least 0 0 (Or.inl ⟨hpos, by omega⟩) (mirrored_self s 0)
    obtain ⟨hm, hlen, _⟩ := h.best (by omega)
    have hlength : (longestPalindrome s).length = (fill s).maxres := by
      rw [longestPalindrome, List.length_take, List.length_drop]
      omega
    have hparts : s = s.take (fill s).idx ++ longestPalindrome s ++
        s.drop ((fill s).idx + (fill s).maxres) := by
      rw [longestPalindrome, List.append_assoc, ← List.drop_drop, List.take_append_drop,
        List.take_append_drop]
    have hidx : (s.take (fill s).idx).length = (fill s).idx := List.length_take_of_le (by omega)
    refine ⟨?_, _, _, hparts, fun a' l b' hsplit hl => ?_⟩
    · rw [← mirrored_iff (a := s.take (fill s).idx) (b := s.drop ((fill s).idx + (fill s).maxres))
        (List.length_pos_iff.mp (by omega)), ← hparts, hidx, hlength]
      exact hm
    · rw [hlength, hidx]
      by_cases hnil : l = []
      · rw [hnil, List.length_nil]
        omega
      · have hl0 := List.length_pos_iff.mpr hnil
        have hmir := (mirrored_iff (a := a') (b := b') hnil).mpr hl
        rw [← hsplit, Nat.add_sub_assoc hl0] at hmir
        have htotal := congrArg List.length hsplit
        rw [List.length_append, List.length_append] at htotal
        have hleast := h.least _ _ (Or.inl ⟨by omega, by omega⟩) hmir
        omega

example : longestPalindrome [1, 2, 3, 2, 4, 5, 4] = [2, 3, 2] := by decide

end Palindromes
