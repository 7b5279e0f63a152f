import MakeDownFile.ArrayRanges
import Mathlib.Data.Nat.Digits.Defs
import Mathlib.Data.Nat.Digits.Lemmas

/-! # Programs on strings

isValid tells whether brackets match, atoi reads a number, and FormatString takes out what is too
much of the spaces. -/
namespace StringPrograms

open ArrayRanges

section Brackets

def isOpening (ch : Char) : Bool := ch = '(' || ch = '[' || ch = '{'

def matching (ch top : Char) : Bool :=
  ch = ')' && top = '(' || ch = ']' && top = '[' || ch = '}' && top = '{'

def isValidFrom : List Char → List Char → Bool
  | [], st => st.isEmpty
  | ch :: s, st =>
    if isOpening ch then isValidFrom s (ch :: st)
    else if st.head?.any (matching ch) then isValidFrom s st.tail
    else false

def isValid (s : List Char) : Bool := isValidFrom s []

/-- Strings of brackets that are closed in the reverse order of their opening. -/
inductive Balanced : List Char → Prop where
  | nil : Balanced []
  | wrap {o c : Char} {s t : List Char} (ho : isOpening o = true) (hc : matching c o = true)
      (hs : Balanced s) (ht : Balanced t) : Balanced (o :: (s ++ c :: t))

inductive Closes : List Char → List Char → Prop where
  | done {s : List Char} (h : Balanced s) : Closes [] s
  | close {top c : Char} {st s t : List Char} (hs : Balanced s) (hc : matching c top = true)
      (ht : Closes st t) : Closes (top :: st) (s ++ c :: t)

theorem not_opening_of_matching {ch top : Char} (h : matching ch top = true) :
    isOpening ch = false := by
  simp only [matching, Bool.or_eq_true, Bool.and_eq_true, decide_eq_true_eq] at h
  rcases h with (⟨rfl, _⟩ | ⟨rfl, _⟩) | ⟨rfl, _⟩ <;> decide

theorem is_valid_from_append {s : List Char} (h : Balanced s) (rest st : List Char) :
    isValidFrom (s ++ rest) st = isValidFrom rest st := by
  induction h generalizing rest st with
  | nil => rfl
  | @wrap o c s t ho hc _ _ ihs iht =>
    have hclosing : ¬ isOpening c = true := by
      rw [not_opening_of_matching hc]
      exact Bool.false_ne_true
    rw [List.cons_append, isValidFrom, if_pos ho, List.append_assoc, ihs, List.cons_append,
      isValidFrom, if_neg hclosing, List.head?_cons, Option.any_some, if_pos hc, List.tail_cons,
      iht]

theorem closes_open {ch : Char} {st s : List Char} (ho : isOpening ch = true)
    (h : Closes (ch :: st) s) : Closes st (ch :: s) := by
  cases h with
  | @close _ c _ s t hs hc ht =>
    cases ht with
    | done ht => exact Closes.done (Balanced.wrap ho hc hs ht)
    | @close top c' st s' t' hs' hc' ht' =>
      have hwrap := Closes.close (Balanced.wrap ho hc hs hs') hc' ht'
      rwa [List.cons_append, List.append_assoc, List.cons_append] at hwrap

theorem closes_of_valid {s st : List Char} (h : isValidFrom s st = true) : Closes st s := by
  induction s generalizing st with
  | nil =>
    cases st with
    | nil => exact Closes.done Balanced.nil
    | cons top st => cases h
  | cons ch s ih =>
    rw [isValidFrom] at h
    by_cases ho : isOpening ch = true
    · rw [if_pos ho] at h
      exact closes_open ho (ih h)
    · rw [if_neg ho] at h
      cases st with
      | nil => cases h
      | cons top st =>
        rw [List.head?_cons, Option.any_some, List.tail_cons] at h
        by_cases hc : matching ch top = true
        · rw [if_pos hc] at h
          exact Closes.close Balanced.nil hc (ih h)
        · rw [if_neg hc] at h
          cases h

/-- isValid accepts exactly the balanced strings. -/
theorem is_valid_iff (s : List Char) : isValid s = true ↔ Balanced s := by
  constructor
  · intro h
    cases closes_of_valid h with
    | done h => exact h
  · intro h
    have hrest := is_valid_from_append h [] []
    rw [List.append_nil] at hrest
    rw [isValid, hrest]
    rfl

end Brackets

section Numbers

/-- The loop of atoiCore, with num and errno behind it. -/
def atoiCore (minus : Bool) : List Char → ℤ → ℤ × Bool
  | [], num => (if minus then -num else num, true)
  | c :: s, num =>
    if '0' ≤ c ∧ c ≤ '9' then
      let num := num * 10 + (c.toNat - '0'.toNat : ℕ)
      if (!minus ∧ num > 0x7FFFFFFF) ∨ (minus ∧ -num < -0x80000000) then (0, false)
      else atoiCore minus s num
    else (0, false)

/-- The number and whether it is valid. A sign alone is not. -/
def atoi : Option (List Char) → ℤ × Bool
  | none => (0, false)
  | some s =>
    if s = [] then (0, false)
    else
      let minus : Bool := s.head? = some '-'
      let s := if s.head? = some '+' ∨ minus then s.tail else s
      if s = [] then (0, false) else atoiCore minus s 0

def isDigit (c : Char) : Prop := '0' ≤ c ∧ c ≤ '9'

instance : DecidablePred isDigit := fun c => inferInstanceAs (Decidable ('0' ≤ c ∧ c ≤ '9'))

def number (ds : List Char) : ℕ := Nat.ofDigits 10 (ds.reverse.map fun c => c.toNat - '0'.toNat)

inductive Numeral : List Char → ℤ → Prop where
  | plain {ds : List Char} (hne : ds ≠ []) (h : ∀ c ∈ ds, isDigit c) : Numeral ds (number ds)
  | plus {ds : List Char} (hne : ds ≠ []) (h : ∀ c ∈ ds, isDigit c) :
      Numeral ('+' :: ds) (number ds)
  | minus {ds : List Char} (hne : ds ≠ []) (h : ∀ c ∈ ds, isDigit c) :
      Numeral ('-' :: ds) (-(number ds : ℤ))

def IsInt (v : ℤ) : Prop := -0x80000000 ≤ v ∧ v ≤ 0x7FFFFFFF

instance : DecidablePred IsInt := fun v =>
  inferInstanceAs (Decidable (-0x80000000 ≤ v ∧ v ≤ 0x7FFFFFFF))

def signed (minus : Bool) (n : ℕ) : ℤ := if minus then -n else n

variable {ds s : List Char} {c : Char} {minus : Bool} {v : ℤ}

theorem number_concat (ds : List Char) (c : Char) :
    number (ds ++ [c]) = number ds * 10 + (c.toNat - '0'.toNat) := by
  rw [number, List.reverse_append, List.reverse_singleton, List.singleton_append, List.map_cons,
    Nat.ofDigits_cons, ← number]
  omega

theorem number_le_append (ds s : List Char) : number ds ≤ number (ds ++ s) := by
  rw [number, number, List.reverse_append, List.map_append, Nat.ofDigits_append]
  apply Nat.le_add_left_of_le
  exact Nat.le_mul_of_pos_left _ (Nat.pow_pos (by omega))

/-- An overflow that is found at a digit is one of the whole number. -/
theorem is_int_shorter (h : IsInt (signed minus (number (ds ++ s)))) :
    IsInt (signed minus (number ds)) := by
  have hle := number_le_append ds s
  cases minus <;> simp only [IsInt, signed, if_true, Bool.false_eq_true, if_false] at h ⊢ <;> omega

theorem overflow_iff {n : ℕ} : ((!minus) = true ∧ (n : ℤ) > 0x7FFFFFFF) ∨
    (minus = true ∧ -(n : ℤ) < -0x80000000) ↔ ¬ IsInt (signed minus n) := by
  cases minus <;> simp [IsInt, signed]

/-- Behind the digits `ds` the loop accepts more digits, unless the number gets too large. -/
theorem atoi_core_eq (ds s : List Char) (hint : IsInt (signed minus (number ds))) :
    ((∀ c ∈ s, isDigit c) ∧ IsInt (signed minus (number (ds ++ s))) →
      atoiCore minus s (number ds) = (signed minus (number (ds ++ s)), true)) ∧
    (¬ ((∀ c ∈ s, isDigit c) ∧ IsInt (signed minus (number (ds ++ s)))) →
      atoiCore minus s (number ds) = (0, false)) := by
  induction s generalizing ds with
  | nil =>
    rw [List.append_nil]
    exact ⟨fun _ => rfl, fun h => absurd ⟨nofun, hint⟩ h⟩
  | cons c s ih =>
    have hnext : (number ds : ℤ) * 10 + (c.toNat - '0'.toNat : ℕ) = number (ds ++ [c]) := by
      rw [number_concat]
      push_cast
      rfl
    have happend : ds ++ c :: s = ds ++ [c] ++ s := by
      rw [List.append_assoc, List.singleton_append]
    rw [atoiCore, happend]
    by_cases hc : '0' ≤ c ∧ c ≤ '9'
    · rw [if_pos hc]
      simp only [hnext]
      by_cases hover : IsInt (signed minus (number (ds ++ [c])))
      · rw [if_neg fun h => overflow_iff.mp h hover]
        have hrest := ih (ds ++ [c]) hover
        simp only [List.forall_mem_cons, isDigit, hc, true_and, and_self]
        exact hrest
      · rw [if_pos (overflow_iff.mpr hover)]
        exact ⟨fun h => absurd (is_int_shorter h.2) hover, fun _ => rfl⟩
    · rw [if_neg hc]
      exact ⟨fun h => absurd (h.1 c List.mem_cons_self) hc, fun _ => rfl⟩

/-- What becomes of the digits behind the sign. -/
theorem atoi_digits (minus : Bool) (ds : List Char) :
    (ds ≠ [] → (∀ c ∈ ds, isDigit c) → IsInt (signed minus (number ds)) →
      (if ds = [] then (0, false) else atoiCore minus ds 0) = (signed minus (number ds), true)) ∧
    (¬ (ds ≠ [] ∧ (∀ c ∈ ds, isDigit c) ∧ IsInt (signed minus (number ds))) →
      (if ds = [] then (0, false) else atoiCore minus ds 0) = (0, false)) := by
  have hzero : IsInt (signed minus (number [])) := by
    cases minus <;> decide
  have hcore := atoi_core_eq [] ds hzero
  by_cases hne : ds = []
  · rw [if_pos hne]
    exact ⟨fun h => absurd hne h, fun _ => rfl⟩
  · rw [if_neg hne]
    exact ⟨fun _ hd hint => hcore.1 ⟨hd, hint⟩, fun h => hcore.2 fun hc => h ⟨hne, hc⟩⟩

theorem atoi_plus (ds : List Char) :
    atoi (some ('+' :: ds)) = if ds = [] then (0, false) else atoiCore false ds 0 := by
  simp [atoi]

theorem atoi_minus (ds : List Char) :
    atoi (some ('-' :: ds)) = if ds = [] then (0, false) else atoiCore true ds 0 := by
  simp [atoi]

theorem atoi_plain (hp : s.head? ≠ some '+') (hm : s.head? ≠ some '-') :
    atoi (some s) = if s = [] then (0, false) else atoiCore false s 0 := by
  by_cases hs : s = []
  · rw [atoi, if_pos hs, if_pos hs]
  · simp [atoi, hs, hp, hm]

theorem digit_not_sign (hne : ds ≠ []) (h : ∀ c ∈ ds, isDigit c) :
    ds.head? ≠ some '+' ∧ ds.head? ≠ some '-' := by
  cases ds with
  | nil => exact absurd rfl hne
  | cons c ds =>
    have hc := h c List.mem_cons_self
    constructor
    · intro hplus
      cases hplus
      exact absurd hc (by decide)
    · intro hminus
      cases hminus
      exact absurd hc (by decide)

theorem atoi_of_numeral (h : Numeral s v) (hv : IsInt v) : atoi (some s) = (v, true) := by
  cases h with
  | plain hne h =>
    obtain ⟨hp, hm⟩ := digit_not_sign hne h
    rw [atoi_plain hp hm]
    exact (atoi_digits false s).1 hne h hv
  | @plus ds hne h =>
    rw [atoi_plus]
    exact (atoi_digits false ds).1 hne h hv
  | @minus ds hne h =>
    rw [atoi_minus]
    exact (atoi_digits true ds).1 hne h hv

theorem atoi_of_no_numeral (h : ∀ v, Numeral s v → ¬ IsInt v) : atoi (some s) = (0, false) := by
  by_cases hp : s.head? = some '+'
  · obtain ⟨ds, rfl⟩ := List.head?_eq_some_iff.mp hp
    rw [atoi_plus]
    exact (atoi_digits false ds).2 fun ⟨hne, hd, hint⟩ => h _ (Numeral.plus hne hd) hint
  · by_cases hm : s.head? = some '-'
    · obtain ⟨ds, rfl⟩ := List.head?_eq_some_iff.mp hm
      rw [atoi_minus]
      exact (atoi_digits true ds).2 fun ⟨hne, hd, hint⟩ => h _ (Numeral.minus hne hd) hint
    · rw [atoi_plain hp hm]
      exact (atoi_digits false s).2 fun ⟨hne, hd, hint⟩ => h _ (Numeral.plain hne hd) hint

def decimalDigits (n : ℕ) : List Char :=
  if n = 0 then ['0'] else (Nat.digits 10 n).reverse.map fun d => Char.ofNat ('0'.toNat + d)

def decimal (v : ℤ) : List Char :=
  if v < 0 then '-' :: decimalDigits v.natAbs else decimalDigits v.natAbs

theorem digit_char {d : ℕ} (h : d < 10) : isDigit (Char.ofNat ('0'.toNat + d)) ∧
    (Char.ofNat ('0'.toNat + d)).toNat - '0'.toNat = d := by
  interval_cases d <;> decide

theorem decimal_digits_numeral (n : ℕ) : decimalDigits n ≠ [] ∧
    (∀ c ∈ decimalDigits n, isDigit c) ∧ number (decimalDigits n) = n := by
  unfold decimalDigits
  by_cases hn : n = 0
  · rw [if_pos hn, hn]
    refine ⟨List.cons_ne_nil _ _, fun c hc => ?_, by decide⟩
    rw [List.mem_singleton.mp hc]
    decide
  · rw [if_neg hn]
    have hdigit : ∀ d ∈ Nat.digits 10 n, d < 10 := fun d hd => Nat.digits_lt_base (by omega) hd
    refine ⟨?_, fun c hc => ?_, ?_⟩
    · rw [ne_eq, List.map_eq_nil_iff, List.reverse_eq_nil_iff]
      exact Nat.digits_ne_nil_iff_ne_zero.mpr hn
    · obtain ⟨d, hd, rfl⟩ := List.mem_map.mp hc
      exact (digit_char (hdigit d (List.mem_reverse.mp hd))).1
    · rw [number, ← List.map_reverse, List.reverse_reverse, List.map_map]
      have hsame : (Nat.digits 10 n).map ((fun c : Char => c.toNat - '0'.toNat) ∘
          fun d => Char.ofNat ('0'.toNat + d)) = Nat.digits 10 n := by
        apply (List.map_congr_left fun d hd => ?_).trans (List.map_id _)
        exact (digit_char (hdigit d hd)).2
      rw [hsame, Nat.ofDigits_digits]

theorem decimal_numeral (v : ℤ) : Numeral (decimal v) v := by
  obtain ⟨hne, hd, hnum⟩ := decimal_digits_numeral v.natAbs
  unfold decimal
  by_cases hv : v < 0
  · have h := Numeral.minus hne hd
    rw [hnum] at h
    have habs : -(v.natAbs : ℤ) = v := by omega
    rw [if_pos hv]
    rwa [habs] at h
  · have h := Numeral.plain hne hd
    rw [hnum] at h
    have habs : (v.natAbs : ℤ) = v := by omega
    rw [if_neg hv]
    rwa [habs] at h

/-- atoi reads the numerals of the ints, and takes everything else for invalid. So it reads back
every int. -/
theorem atoi_reads_ints (str : Option (List Char)) :
    ((∃ s v, str = some s ∧ Numeral s v ∧ IsInt v ∧ atoi str = (v, true)) ∨
      (∀ s v, str = some s → Numeral s v → ¬ IsInt v) ∧ atoi str = (0, false)) ∧
    ∀ v, IsInt v → atoi (some (decimal v)) = (v, true) := by
  refine ⟨?_, fun v hv => atoi_of_numeral (decimal_numeral v) hv⟩
  cases str with
  | none => exact Or.inr ⟨nofun, rfl⟩
  | some s =>
    by_cases h : ∃ v, Numeral s v ∧ IsInt v
    · obtain ⟨v, hs, hv⟩ := h
      exact Or.inl ⟨s, v, rfl, hs, hv, atoi_of_numeral hs hv⟩
    · have hno : ∀ v, Numeral s v → ¬ IsInt v := fun v hs hv => h ⟨v, hs, hv⟩
      refine Or.inr ⟨fun s' v hs' => ?_, atoi_of_no_numeral hno⟩
      cases hs'
      exact hno v

end Numbers

section Spaces

def nul : Char := Char.ofNat 0

def skipSpaces (n : ℤ) (str : ℤ → Char) : ℕ → ℤ → Option ℤ
  | 0, _ => none
  | fuel + 1, i => do
    let c ← load n str i
    if c = ' ' then skipSpaces n str fuel (i + 1) else some i

/-- A space is copied only in front of something else. -/
def copyRest (n : ℤ) : ℕ → (ℤ → Char) → ℤ → ℤ → Option (ℤ → Char)
  | 0, _, _, _ => none
  | fuel + 1, str, i, j => do
    let c ← load n str i
    if c = nul then store n str j nul
    else do
      let next ← if c = ' ' then load n str (i + 1) else some c
      if c = ' ' ∧ (next = ' ' ∨ next = nul) then copyRest n fuel str (i + 1) j
      else do
        let str ← store n str j c
        copyRest n fuel str (i + 1) (j + 1)

def formatString (n : ℤ) (str : ℤ → Char) (len : ℤ) (fuel : ℕ) : Option (ℤ → Char) :=
  if len ≤ 0 then some str
  else do
    let i ← skipSpaces n str fuel 0
    copyRest n fuel str i 0

def Spells (str : ℤ → Char) : ℤ → List Char → Prop
  | i, [] => str i = nul
  | i, c :: s => str i = c ∧ c ≠ nul ∧ Spells str (i + 1) s

def words (s : List Char) : List (List Char) := (s.splitOn ' ').filter (· ≠ [])

def joined (s : List Char) : List Char := List.intercalate [' '] (words s)

def squeezed : List Char → List Char
  | [] => []
  | c :: s => if c = ' ' ∧ (s.head? = some ' ' ∨ s = []) then squeezed s else c :: squeezed s

variable {n i j : ℤ} {str : ℤ → Char} {s : List Char} {c : Char} {fuel : ℕ}

theorem spells_update {x : ℤ} (h : Spells str i s) (hx : x < i) :
    Spells (Function.update str x c) i s := by
  induction s generalizing i with
  | nil =>
    rw [Spells, Function.update_of_ne (by omega)]
    exact h
  | cons d s ih =>
    refine ⟨?_, h.2.1, ih h.2.2 (by omega)⟩
    rw [Function.update_of_ne (by omega)]
    exact h.1

theorem spells_skip (h : Spells str i (c :: s)) (hn : i + (c :: s).length < n) (h0 : 0 ≤ i) :
    load n str i = some c ∧ c ≠ nul ∧ Spells str (i + 1) s ∧ i + 1 + s.length < n := by
  have hlen : ((c :: s).length : ℤ) = s.length + 1 := by
    rw [List.length_cons]
    push_cast
    rfl
  obtain ⟨hc, hnul, hrest⟩ := h
  refine ⟨?_, hnul, hrest, by omega⟩
  rw [load_eq h0 (by omega), hc]

theorem load_next (h : Spells str i s) (hn : i + s.length < n) (h0 : 0 ≤ i) :
    load n str i = some (s.head?.getD nul) := by
  cases s with
  | nil => rw [load_eq h0 (by simpa using hn), h.symm.symm, List.head?_nil, Option.getD_none]
  | cons c s => rw [(spells_skip h hn h0).1, List.head?_cons, Option.getD_some]

/-- The loop stays in the string, and changes nothing behind it or before `j`. -/
theorem copy_rest_spells (h : Spells str i s) (hj : 0 ≤ j) (hji : j ≤ i) (hn : i + s.length < n)
    (hfuel : s.length < fuel) : ∃ str', copyRest n fuel str i j = some str' ∧
      Spells str' j (squeezed s) ∧ ∀ x, x < j ∨ i + s.length < x → str' x = str x := by
  induction s generalizing str i j fuel with
  | nil =>
    cases fuel with
    | zero => cases hfuel
    | succ fuel =>
      rw [List.length_nil] at hn
      have hi : str i = nul := h
      rw [copyRest, load_eq (by omega) (by omega), hi]
      simp only [Option.bind_eq_bind, Option.bind_some, if_true]
      refine ⟨_, store_eq hj (by omega), Function.update_self _ _ _, fun x hx => ?_⟩
      rw [List.length_nil] at hx
      exact Function.update_of_ne (by omega) _ _
  | cons c s ih =>
    cases fuel with
    | zero => cases hfuel
    | succ fuel =>
      have hfuel' : s.length < fuel := Nat.lt_of_succ_lt_succ hfuel
      have hlen : ((c :: s).length : ℤ) = s.length + 1 := by
        rw [List.length_cons]
        push_cast
        rfl
      obtain ⟨hload, hnul, hrest, hn'⟩ := spells_skip h hn (hj.trans hji)
      have hnext := load_next hrest hn' (by omega)
      have hcopied : ∃ str', (do
          let str ← store n str j c
          copyRest n fuel str (i + 1) (j + 1)) = some str' ∧ Spells str' j (c :: squeezed s) ∧
          ∀ x, x < j ∨ i + (c :: s).length < x → str' x = str x := by
        obtain ⟨str', hcopy, hspells, hsame⟩ := ih (j := j + 1)
          (spells_update (c := c) (x := j) hrest (by omega)) (by omega) (by omega) hn' hfuel'
        refine ⟨str', ?_, ⟨?_, hnul, hspells⟩, fun x hx => ?_⟩
        · rw [store_eq hj (by omega)]
          exact hcopy
        · rw [hsame j (Or.inl (by omega)), Function.update_self]
        · rw [hsame x (by omega), Function.update_of_ne (by omega)]
      rw [copyRest, hload]
      simp only [Option.bind_eq_bind, Option.bind_some]
      rw [if_neg hnul, squeezed]
      by_cases hspace : c = ' '
      · rw [if_pos hspace, hnext]
        simp only [Option.bind_some]
        have hiff : (s.head?.getD nul = ' ' ∨ s.head?.getD nul = nul) ↔
            s.head? = some ' ' ∨ s = [] := by
          cases s with
          | nil => simp
          | cons d s => simp [hrest.2.1]
        by_cases hdrop : s.head? = some ' ' ∨ s = []
        · rw [if_pos ⟨hspace, hiff.mpr hdrop⟩, if_pos ⟨hspace, hdrop⟩]
          obtain ⟨str', hcopy, hspells, hsame⟩ := ih hrest hj (by omega) hn' hfuel'
          exact ⟨str', hcopy, hspells, fun x hx => hsame x (by omega)⟩
        · rw [if_neg fun hd => hdrop (hiff.mp hd.2), if_neg fun hd => hdrop hd.2]
          exact hcopied
      · rw [if_neg hspace, if_neg fun hd => hspace hd.1, if_neg fun hd => hspace hd.1]
        exact hcopied

theorem skip_spaces_spells (h : Spells str i s) (h0 : 0 ≤ i) (hn : i + s.length < n)
    (hfuel : s.length < fuel) : ∃ k, skipSpaces n str fuel i = some k ∧ i ≤ k ∧
      Spells str k (s.dropWhile (· = ' ')) ∧ k + (s.dropWhile (· = ' ')).length = i + s.length := by
  induction s generalizing i fuel with
  | nil =>
    cases fuel with
    | zero => cases hfuel
    | succ fuel =>
      have hload := load_next h hn h0
      refine ⟨i, ?_, le_refl i, h, rfl⟩
      rw [skipSpaces, hload]
      rfl
  | cons c s ih =>
    cases fuel with
    | zero => cases hfuel
    | succ fuel =>
      obtain ⟨hload, _, hrest, hn'⟩ := spells_skip h hn h0
      rw [skipSpaces, hload]
      simp only [Option.bind_eq_bind, Option.bind_some]
      by_cases hc : c = ' '
      · rw [if_pos hc, List.dropWhile_cons_of_pos (by simpa using hc)]
        obtain ⟨k, hk, hik, hspells, hend⟩ := ih hrest (by omega) hn' (Nat.lt_of_succ_lt_succ hfuel)
        refine ⟨k, hk, by omega, hspells, ?_⟩
        rw [hend, List.length_cons]
        push_cast
        omega
      · rw [if_neg hc, List.dropWhile_cons_of_neg (by simpa using hc)]
        exact ⟨i, rfl, le_refl i, h, rfl⟩

theorem words_space (s : List Char) : words (' ' :: s) = words s := by
  rw [words, words, List.splitOn_cons_eq_if_modifyHead, if_pos (by decide),
    List.filter_cons_of_neg (by simp)]

theorem words_drop_spaces (s : List Char) : words (s.dropWhile (· = ' ')) = words s := by
  induction s with
  | nil => rfl
  | cons c s ih =>
    by_cases hc : c = ' '
    · rw [List.dropWhile_cons_of_pos (by simpa using hc), ih, hc, words_space]
    · rw [List.dropWhile_cons_of_neg (by simpa using hc)]

theorem words_ne_nil (hc : c ≠ ' ') : words (c :: s) ≠ [] := by
  intro hnil
  obtain ⟨h, t, hsplit⟩ := List.exists_cons_of_ne_nil (List.splitOn_ne_nil ' ' s)
  rw [words, List.splitOn_cons_eq_if_modifyHead, if_neg (by simpa using hc), hsplit,
    List.modifyHead_cons, List.filter_cons_of_pos (by simp)] at hnil
  cases hnil

theorem joined_letter (hc : c ≠ ' ') : joined (c :: s) =
    c :: if s.head? = some ' ' ∧ words s ≠ [] then ' ' :: joined s else joined s := by
  have hwords : ∀ h t, s.splitOn ' ' = h :: t →
      words (c :: s) = (c :: h) :: t.filter (· ≠ []) := by
    intro h t hsplit
    rw [words, List.splitOn_cons_eq_if_modifyHead, if_neg (by simpa using hc), hsplit,
      List.modifyHead_cons, List.filter_cons_of_pos (by simp)]
  cases s with
  | nil => rw [joined, hwords [] [] rfl, if_neg fun h => h.2 rfl]; rfl
  | cons d s =>
    by_cases hd : d = ' '
    · -- a word of its own
      have hsplit : (d :: s).splitOn ' ' = [] :: s.splitOn ' ' := by
        rw [List.splitOn_cons_eq_if_modifyHead, if_pos (by simpa using hd)]
      have hrest : (s.splitOn ' ').filter (· ≠ []) = words (d :: s) := by
        rw [hd, words_space, words]
      rw [joined, hwords _ _ hsplit, hrest, hd]
      by_cases hnil : words (' ' :: s) = []
      · rw [hnil, if_neg fun h => h.2 rfl, joined, hnil, List.intercalate_singleton]
        rfl
      · rw [if_pos ⟨rfl, hnil⟩, List.intercalate_cons_of_ne_nil hnil, joined]
        rfl
    · obtain ⟨h, t, hsplit⟩ := List.exists_cons_of_ne_nil (List.splitOn_ne_nil ' ' s)
      have hsplit' : (d :: s).splitOn ' ' = (d :: h) :: t := by
        rw [List.splitOn_cons_eq_if_modifyHead, if_neg (by simpa using hd), hsplit,
          List.modifyHead_cons]
      have hwords' : words (d :: s) = (d :: h) :: t.filter (· ≠ []) := by
        rw [words, hsplit', List.filter_cons_of_pos (by simp)]
      rw [joined, hwords _ _ hsplit', if_neg fun h => hd (Option.some.inj h.1), joined, hwords',
        List.intercalate_cons_cons_left]

/-- What is copied are the words, behind a space if there was one before the first of them. -/
theorem squeezed_eq (s : List Char) : squeezed s =
    if s.head? = some ' ' ∧ words s ≠ [] then ' ' :: joined s else joined s := by
  induction s with
  | nil => rfl
  | cons c s ih =>
    by_cases hc : c = ' '
    · have hjoined : joined (c :: s) = joined s := by
        rw [hc, joined, words_space, joined]
      rw [squeezed, hjoined, hc, words_space]
      by_cases hdrop : s.head? = some ' ' ∨ s = []
      · rw [if_pos ⟨rfl, hdrop⟩, ih]
        rcases hdrop with hhead | rfl
        · simp only [hhead, List.head?_cons]
        · rfl
      · obtain ⟨hhead, hne⟩ := not_or.mp hdrop
        obtain ⟨d, t, rfl⟩ := List.exists_cons_of_ne_nil hne
        have hd : d ≠ ' ' := fun hd => hhead (by rw [hd]; rfl)
        rw [if_neg fun h => hdrop h.2, ih, if_neg fun h => hhead h.1,
          if_pos ⟨rfl, words_ne_nil hd⟩]
    · have hhead : ¬ ((c :: s).head? = some ' ' ∧ words (c :: s) ≠ []) :=
        fun h => hc (Option.some.inj h.1)
      rw [if_neg hhead, squeezed, if_neg fun h => hc h.1, ih, joined_letter hc]

/-- FormatString leaves the words of the string with one space between them. -/
theorem format_string_joins {len : ℤ} (h : Spells str 0 s) (hn : s.length < n) (hlen : 0 < len)
    (hfuel : s.length < fuel) : ∃ str', formatString n str len fuel = some str' ∧
      Spells str' 0 (joined s) ∧ ∀ x : ℤ, s.length < x → str' x = str x := by
  obtain ⟨i, hi, h0, hspells, hend⟩ := skip_spaces_spells (n := n) h (le_refl 0) (by omega)
    hfuel
  have hshort := (List.dropWhile_suffix (l := s) (fun c => decide (c = ' '))).length_le
  obtain ⟨str', hcopy, hspells', hsame⟩ := copy_rest_spells (n := n) hspells (le_refl 0) h0
    (by omega) (lt_of_le_of_lt hshort hfuel)
  refine ⟨str', ?_, ?_, fun x hx => hsame x (by omega)⟩
  · rw [formatString, if_neg (by omega), hi]
    exact hcopy
  · have hhead : (s.dropWhile (· = ' ')).head? ≠ some ' ' := by
      intro hsome
      have hnot := List.head?_dropWhile_not (fun c => decide (c = ' ')) s
      rw [hsome] at hnot
      exact absurd rfl (of_decide_eq_false hnot)
    rw [squeezed_eq, if_neg fun hs => hhead hs.1, joined, words_drop_spaces] at hspells'
    exact hspells'

def sampleString : List Char := [' ', 'a', 'b', ' ', ' ', 'c', ' ']

def sampleBuffer (i : ℤ) : Char := (sampleString[i.toNat]?).getD nul

theorem format_string_joins_sample : ∃ str', formatString 8 sampleBuffer 7 8 = some str' ∧
    Spells str' 0 (joined sampleString) ∧ ∀ x, 7 < x → str' x = sampleBuffer x := by
  have h : Spells sampleBuffer 0 sampleString := by
    simp only [sampleString, Spells]
    decide
  exact format_string_joins (n := 8) h (by decide) (show (0 : ℤ) < 7 by decide)
    (show sampleString.length < 8 by decide)

example : joined sampleString = ['a', 'b', ' ', 'c'] := by decide

end Spaces

end StringPrograms
