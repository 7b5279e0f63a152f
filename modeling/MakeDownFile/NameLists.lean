import MakeDownFile.CallPrograms
import Mathlib.Data.List.Basic

/-! # Lists of NUL terminated names

The usual loops over such a list, which move a pointer by strlen and skip stray NULs. What
they visit does not depend on whether they also step over the NUL that ends a name. -/
namespace NameLists

open CallPrograms
open CallPrograms.Prog

abbrev Name := List UInt8

/-- Undefined where no NUL follows. -/
def strlen (bs : List UInt8) : Option ℕ := bs.findIdx? (· == 0)

def names (bs : List UInt8) : Option (List Name) :=
  if (bs.splitOn 0).getLast? = some [] then some ((bs.splitOn 0).filter (· ≠ [])) else none

def segments (bs : List UInt8) : List Name := (bs.splitOn 0).filter (· ≠ [])

section Names

variable {bs n rest : List UInt8}

theorem strlen_none (h : 0 ∉ bs) : strlen bs = none := by
  rw [strlen, List.findIdx?_eq_none_iff]
  intro b hb
  have hne : b ≠ 0 := fun he => h (he ▸ hb)
  simpa using hne

theorem strlen_some (h : 0 ∉ n) : strlen (n ++ 0 :: rest) = some n.length := by
  induction n with
  | nil => rfl
  | cons b n ih =>
    have hb : b ≠ 0 := fun he => h (he ▸ List.mem_cons_self)
    have hstep := ih fun hm => h (List.mem_cons_of_mem b hm)
    simp only [strlen] at hstep ⊢
    simp [List.findIdx?_cons, hb, hstep]

theorem names_nil : names [] = some [] := rfl

theorem names_unterminated (hne : bs ≠ []) (h : 0 ∉ bs) : names bs = none := by
  rw [names, List.splitOn_eq_singleton h]
  simp [hne]

theorem names_append (h : 0 ∉ n) :
    names (n ++ 0 :: rest) = (names rest).map fun ns => if n = [] then ns else n :: ns := by
  rw [names, names, List.splitOn_append_cons_self_of_not_mem h,
    List.getLast?_cons_of_ne_nil (List.splitOn_ne_nil 0 rest)]
  by_cases hlast : (rest.splitOn 0).getLast? = some []
  · by_cases hn : n = [] <;> simp [hlast, hn]
  · simp [hlast]

/-- A list ends, or has no NUL, or starts with a name that may be empty. -/
theorem name_list_induction {P : List UInt8 → Prop} (nil : P [])
    (unterminated : ∀ bs, bs ≠ [] → 0 ∉ bs → P bs)
    (name : ∀ n rest, 0 ∉ n → P rest → P (n ++ 0 :: rest)) (bs : List UInt8) : P bs := by
  induction hlen : bs.length using Nat.strongRecOn generalizing bs with
  | ind k ih =>
    by_cases hnil : bs = []
    · exact hnil ▸ nil
    by_cases hnul : 0 ∈ bs
    · obtain ⟨n, rest, rfl, hn⟩ := List.eq_append_cons_of_mem hnul
      refine name n rest hn (ih rest.length ?_ rest rfl)
      rw [← hlen, List.length_append, List.length_cons]
      omega
    · exact unterminated bs hnil hnul

/-- Only a list of NULs is terminated and names nothing. -/
theorem names_empty_iff : names bs = some [] ↔ ∀ b ∈ bs, b = 0 := by
  induction bs using name_list_induction with
  | nil => simp [names_nil]
  | unterminated bs hne h =>
    rw [names_unterminated hne h]
    constructor
    · intro hno
      cases hno
    · intro hall
      obtain ⟨b, bs, rfl⟩ := List.exists_cons_of_ne_nil hne
      exact absurd (hall b List.mem_cons_self ▸ List.mem_cons_self) h
  | name n rest hn ih =>
    rw [names_append hn]
    by_cases hnil : n = []
    · subst hnil
      simp [ih]
    · obtain ⟨b, n, rfl⟩ := List.exists_cons_of_ne_nil hnil
      have hb : b ≠ 0 := fun he => hn (he ▸ List.mem_cons_self)
      simp [hb]

/-- The parts of a list are all terminated where its last byte is a NUL. -/
theorem names_none_iff (hne : bs ≠ []) : names bs = none ↔ bs.getLast? ≠ some 0 := by
  induction bs using name_list_induction with
  | nil => exact absurd rfl hne
  | unterminated bs _ h =>
    rw [names_unterminated hne h]
    refine iff_of_true rfl fun hlast => h (List.mem_of_getLast? hlast)
  | name n rest hn ih =>
    rw [names_append hn, Option.map_eq_none_iff]
    by_cases hrest : rest = []
    · subst hrest
      simp [names_nil]
    · rw [ih hrest, List.getLast?_append_of_ne_nil n (List.cons_ne_nil 0 rest),
        List.getLast?_cons_of_ne_nil hrest]

theorem names_segments (hne : bs ≠ []) (hlast : bs.getLast? = some 0) :
    names bs = some (segments bs) := by
  have hsome := (names_none_iff hne).not.mpr (not_not.mpr hlast)
  unfold names at hsome ⊢
  split at hsome
  · rw [if_pos (by assumption)]
    rfl
  · exact absurd rfl hsome

theorem names_nonempty {ns : List Name} (h : names bs = some ns) : [] ∉ ns := by
  rw [names] at h
  split at h
  · obtain rfl := Option.some.inj h
    simp
  · cases h

theorem names_length {ns : List Name} (h : names bs = some ns) (hne : ns ≠ []) :
    2 ≤ bs.length := by
  match bs with
  | [] =>
    cases h
    exact absurd rfl hne
  | [b] =>
    by_cases hb : b = 0
    · subst hb
      cases h
      exact absurd rfl hne
    · rw [names_unterminated (List.cons_ne_nil b []) (by simpa using Ne.symm hb)] at h
      cases h
  | b :: c :: bs => simp

theorem names_skip (rest : List UInt8) : names (0 :: rest) = names rest := by
  have hempty := @names_append [] rest List.not_mem_nil
  simpa using hempty

theorem names_line {ns : List Name} (hn : 0 ∉ n) :
    names (n ++ 0 :: rest) = some (n :: ns) ↔ n ≠ [] ∧ names rest = some ns := by
  rw [names_append hn]
  by_cases hnil : n = []
  · subst hnil
    refine iff_of_false (fun h => ?_) (fun h => h.1 rfl)
    obtain ⟨ns', hns', heq⟩ := Option.map_eq_some_iff.mp h
    rw [if_pos rfl] at heq
    exact names_nonempty hns' (heq ▸ List.mem_cons_self)
  · rw [Option.map_eq_some_iff]
    constructor
    · intro ⟨ns', hns', heq⟩
      rw [if_neg hnil] at heq
      rw [hns', (List.cons.inj heq).2]
      exact ⟨hnil, rfl⟩
    · exact fun h => ⟨ns, h.2, if_neg hnil⟩

end Names

/-- The counting loop. `step` is how far behind a name it goes on, and `skip` counts the
bytes that its pointer still has to pass. -/
def countNames (step : ℕ) : ℕ → List UInt8 → ℕ → Option ℕ
  | 0, [], n => some n
  | _ + 1, [], _ => none
  | skip + 1, _ :: rest, n => countNames step skip rest n
  | 0, b :: rest, n =>
    match strlen (b :: rest) with
    | none => none
    | some 0 => countNames step 0 rest n
    | some (len + 1) => countNames step (len + step) rest (n + 1)

variable {C : Type} {R : C → Type} {ρ σ : Type}

def walkNames (step : ℕ) (body : Name → σ → Prog C R (Except ρ σ)) :
    ℕ → List UInt8 → σ → Prog C R (Except ρ σ)
  | 0, [], s => ret (.ok s)
  | _ + 1, [], _ => fault
  | skip + 1, _ :: rest, s => walkNames step body skip rest s
  | 0, b :: rest, s =>
    match strlen (b :: rest) with
    | none => fault
    | some 0 => walkNames step body 0 rest s
    | some (len + 1) =>
      (body ((b :: rest).take (len + 1)) s).proceed (walkNames step body (len + step) rest)

section Walk

variable {step : ℕ} {bs n rest : List UInt8}

theorem count_unterminated (hne : bs ≠ []) (h : 0 ∉ bs) (m : ℕ) :
    countNames step 0 bs m = none := by
  obtain ⟨b, bs, rfl⟩ := List.exists_cons_of_ne_nil hne
  rw [countNames, strlen_none h]

theorem count_nul (m : ℕ) : countNames step 0 (0 :: rest) m = countNames step 0 rest m := rfl

/-- The loop steps over the NUL behind a name, or meets it in its next turn. -/
theorem count_past (hstep : step ≤ 1) (m : ℕ) :
    countNames step (n.length + step) (n ++ 0 :: rest) m = countNames step 0 rest m := by
  induction n with
  | nil =>
    rcases Nat.le_one_iff_eq_zero_or_eq_one.mp hstep with rfl | rfl
    · exact count_nul m
    · rfl
  | cons b n ih =>
    rw [List.length_cons, Nat.add_right_comm]
    exact ih

theorem count_name (hstep : step ≤ 1) (hne : n ≠ []) (h : 0 ∉ n) (m : ℕ) :
    countNames step 0 (n ++ 0 :: rest) m = countNames step 0 rest (m + 1) := by
  obtain ⟨b, n, rfl⟩ := List.exists_cons_of_ne_nil hne
  have hlen : strlen (b :: (n ++ 0 :: rest)) = some (n.length + 1) := strlen_some h
  rw [List.cons_append, countNames, hlen]
  exact count_past hstep (m + 1)

theorem count_names (hstep : step ≤ 1) (m : ℕ) :
    countNames step 0 bs m = (names bs).map fun ns => m + ns.length := by
  induction bs using name_list_induction generalizing m with
  | nil => rfl
  | unterminated bs hne h =>
    rw [count_unterminated hne h, names_unterminated hne h]
    rfl
  | name n rest hn ih =>
    rw [names_append hn, Option.map_map]
    by_cases hnil : n = []
    · subst hnil
      rw [List.nil_append, count_nul, ih]
      rfl
    · rw [count_name hstep hnil hn, ih]
      simp only [hnil, if_false, Function.comp_def, List.length_cons, Nat.add_right_comm,
        Nat.add_assoc]

variable {body : Name → σ → Prog C R (Except ρ σ)}

theorem walk_past (hstep : step ≤ 1) (s : σ) :
    walkNames step body (n.length + step) (n ++ 0 :: rest) s = walkNames step body 0 rest s := by
  induction n with
  | nil => rcases Nat.le_one_iff_eq_zero_or_eq_one.mp hstep with rfl | rfl <;> rfl
  | cons b n ih =>
    rw [List.length_cons, Nat.add_right_comm]
    exact ih

theorem walk_name (hstep : step ≤ 1) (hne : n ≠ []) (h : 0 ∉ n) (s : σ) :
    walkNames step body 0 (n ++ 0 :: rest) s =
      (body n s).proceed (walkNames step body 0 rest) := by
  obtain ⟨b, n, rfl⟩ := List.exists_cons_of_ne_nil hne
  have hlen : strlen (b :: (n ++ 0 :: rest)) = some (n.length + 1) := strlen_some h
  have htake : (b :: (n ++ 0 :: rest)).take (n.length + 1) = b :: n := by simp
  rw [List.cons_append, walkNames, hlen]
  dsimp only
  rw [htake]
  exact congrArg _ (funext fun s => walk_past hstep s)

theorem walk_unterminated (hne : bs ≠ []) (h : 0 ∉ bs) (s : σ) :
    walkNames step body 0 bs s = fault := by
  obtain ⟨b, bs, rfl⟩ := List.exists_cons_of_ne_nil hne
  rw [walkNames, strlen_none h]

/-- Whether a loop passes the NUL with the name or after it makes no difference. -/
theorem walk_steps {step' : ℕ} (hstep : step ≤ 1) (hstep' : step' ≤ 1) (s : σ) :
    walkNames step body 0 bs s = walkNames step' body 0 bs s := by
  induction bs using name_list_induction generalizing s with
  | nil => rfl
  | unterminated bs hne h => rw [walk_unterminated hne h, walk_unterminated hne h]
  | name n rest hn ih =>
    by_cases hnil : n = []
    · subst hnil
      exact ih s
    · rw [walk_name hstep hnil hn, walk_name hstep' hnil hn]
      exact congrArg _ (funext ih)

/-- Over a terminated list the loop does its work on the names, in their order. -/
theorem walk_names (hstep : step ≤ 1) {ns : List Name} (h : names bs = some ns) (s : σ) :
    walkNames step body 0 bs s = iterate body ns s := by
  induction bs using name_list_induction generalizing ns s with
  | nil =>
    cases h
    rfl
  | unterminated bs hne hno => rw [names_unterminated hne hno] at h; cases h
  | name n rest hn ih =>
    rw [names_append hn] at h
    obtain ⟨ns', hns', rfl⟩ := Option.map_eq_some_iff.mp h
    by_cases hnil : n = []
    · subst hnil
      exact ih hns' s
    · rw [walk_name hstep hnil hn, if_neg hnil, iterate]
      exact congrArg _ (funext fun s => ih hns' s)

end Walk

end NameLists
