import MakeDownFile.NameLists
import Mathlib.Data.Nat.Find

/-! # Scanning memory for names

The loop over a list of names as a pointer makes it: it passes over strings and NULs until it
stands at the end of the list, and the memory goes on behind that end. -/
namespace NameScans

open NameLists

structure IsStrlen (mem : ℕ → UInt8) (p n : ℕ) : Prop where
  nul : mem (p + n) = 0
  before : ∀ i < n, mem (p + i) ≠ 0

def slice (mem : ℕ → UInt8) (p n : ℕ) : List UInt8 := (List.range n).map fun i => mem (p + i)

inductive Turn (mem : ℕ → UInt8) (step p : ℕ) : Option Name → ℕ → Prop where
  | nul (h : mem p = 0) : Turn mem step p none (p + 1)
  | name (n : ℕ) (h : IsStrlen mem p (n + 1)) :
      Turn mem step p (some (slice mem p (n + 1))) (p + (n + 1) + step)

/-- Turns that take the pointer from `p` to `q`, and the names they find. There are no turns
at the end of the list, but there are behind it. -/
inductive Loop (mem : ℕ → UInt8) (stop step : ℕ) : ℕ → List Name → ℕ → Prop where
  | start (p : ℕ) : Loop mem stop step p [] p
  | turn {p q r : ℕ} {name : Option Name} {ns : List Name} (hp : p ≠ stop)
      (hturn : Turn mem step p name q) (hloop : Loop mem stop step q ns r) :
      Loop mem stop step p (name.toList ++ ns) r

def Examines (mem : ℕ → UInt8) (stop step j : ℕ) : Prop :=
  ∃ ns q, Loop mem stop step 0 ns q ∧ q ≠ stop ∧ q ≤ j ∧ ∀ i, q ≤ i → i < j → mem i ≠ 0

/-- The loop over `stop` bytes ends, and examines no others. -/
structure StaysInside (mem : ℕ → UInt8) (stop step : ℕ) : Prop where
  ends : ∃ ns, Loop mem stop step 0 ns stop
  inside : ∀ j, Examines mem stop step j → j < stop

variable {mem : ℕ → UInt8} {stop step p q r n m : ℕ}

theorem strlen_exists (h : ∃ k, mem (p + k) = 0) : ∃ n, IsStrlen mem p n :=
  ⟨Nat.find h, Nat.find_spec h, fun _ hi => Nat.find_min h hi⟩

theorem strlen_le (h : IsStrlen mem p n) (hm : mem (p + m) = 0) : n ≤ m := by
  by_contra hlt
  exact h.before m (Nat.lt_of_not_le hlt) hm

theorem strlen_unique (h : IsStrlen mem p n) (h' : IsStrlen mem p m) : n = m :=
  Nat.le_antisymm (strlen_le h h'.nul) (strlen_le h' h.nul)

theorem turn_unique {name name' : Option Name} (h : Turn mem step p name q)
    (h' : Turn mem step p name' r) : name = name' ∧ q = r := by
  cases h with
  | nul hnul =>
    cases h' with
    | nul => exact ⟨rfl, rfl⟩
    | name n hn => exact absurd hnul (hn.before 0 n.succ_pos)
  | name n hn =>
    cases h' with
    | nul hnul => exact absurd hnul (hn.before 0 n.succ_pos)
    | name m hm =>
      obtain rfl : n = m := Nat.succ.inj (strlen_unique hn hm)
      exact ⟨rfl, rfl⟩

/-- The loop has one way to the end of the list. -/
theorem loop_unique {ns ns' : List Name} (h : Loop mem stop step p ns r) (hr : r = stop)
    (h' : Loop mem stop step p ns' stop) : ns = ns' := by
  induction h generalizing ns' with
  | start p =>
    subst hr
    cases h' with
    | start => rfl
    | turn hp => exact absurd rfl hp
  | turn hp hturn _ ih =>
    cases h' with
    | start => exact absurd rfl hp
    | turn _ hturn' hloop' =>
      obtain ⟨rfl, rfl⟩ := turn_unique hturn hturn'
      rw [ih hr hloop']

theorem strlen_within (hlast : mem (stop - 1) = 0) (hp : p < stop) :
    ∃ n, IsStrlen mem p n ∧ p + n < stop := by
  have hnul : mem (p + (stop - 1 - p)) = 0 := by
    rw [show p + (stop - 1 - p) = stop - 1 by omega]
    exact hlast
  obtain ⟨n, hn⟩ := strlen_exists ⟨_, hnul⟩
  have hle := strlen_le hn hnul
  exact ⟨n, hn, by omega⟩

theorem turn_within (hstep : step ≤ 1) (hlast : mem (stop - 1) = 0) (hp : p < stop) :
    ∃ name q, Turn mem step p name q ∧ p < q ∧ q ≤ stop := by
  obtain ⟨n, hn, hlt⟩ := strlen_within hlast hp
  cases n with
  | zero => exact ⟨none, p + 1, .nul hn.nul, by omega, by omega⟩
  | succ n => exact ⟨_, _, .name n hn, by omega, by omega⟩

theorem loop_ends (hstep : step ≤ 1) (hlast : mem (stop - 1) = 0) (hp : p ≤ stop) :
    ∃ ns, Loop mem stop step p ns stop := by
  induction hd : stop - p using Nat.strongRecOn generalizing p with
  | ind d ih =>
    by_cases hend : p = stop
    · subst hend
      exact ⟨[], .start p⟩
    · obtain ⟨name, q, hturn, hpq, hq⟩ := turn_within hstep hlast (by omega : p < stop)
      obtain ⟨ns, hloop⟩ := ih (stop - q) (by omega) hq rfl
      exact ⟨name.toList ++ ns, .turn hend hturn hloop⟩

theorem loop_within {ns : List Name} (hstep : step ≤ 1) (hlast : mem (stop - 1) = 0)
    (h : Loop mem stop step p ns q) (hp : p ≤ stop) : q ≤ stop := by
  induction h with
  | start p => exact hp
  | turn hend hturn _ ih =>
    obtain ⟨name, q, hturn', -, hq⟩ := turn_within hstep hlast (Nat.lt_of_le_of_ne hp hend)
    obtain ⟨-, rfl⟩ := turn_unique hturn hturn'
    exact ih hq

theorem examines_within {j : ℕ} (hstep : step ≤ 1) (hlast : mem (stop - 1) = 0)
    (h : Examines mem stop step j) : j < stop := by
  obtain ⟨ns, q, hloop, hq, hqj, hbytes⟩ := h
  have hle := loop_within hstep hlast hloop (Nat.zero_le stop)
  by_contra hj
  exact hbytes (stop - 1) (by omega) (by omega) hlast

/-- Where the last byte of the list is part of a name, the loop comes to that name. -/
theorem loop_open_name (hstep : step ≤ 1) (hlast : mem (stop - 1) ≠ 0) (hp : p < stop) :
    ∃ ns q, Loop mem stop step p ns q ∧ q < stop ∧ ∀ i, q ≤ i → i < stop → mem i ≠ 0 := by
  induction hd : stop - p using Nat.strongRecOn generalizing p with
  | ind d ih =>
    by_cases hopen : ∀ i, p ≤ i → i < stop → mem i ≠ 0
    · exact ⟨[], p, .start p, hp, hopen⟩
    · push Not at hopen
      obtain ⟨i, hpi, hi, hnul⟩ := hopen
      have hk : mem (p + (i - p)) = 0 := by rwa [Nat.add_sub_cancel' hpi]
      obtain ⟨n, hn⟩ := strlen_exists ⟨_, hk⟩
      have hle := strlen_le hn hk
      have hne : i ≠ stop - 1 := fun he => hlast (he ▸ hnul)
      -- the string ends before the last byte, so the next turn starts in the list
      have hnext : ∃ name q, Turn mem step p name q ∧ p < q ∧ q < stop := by
        cases n with
        | zero => exact ⟨none, p + 1, .nul hn.nul, by omega, by omega⟩
        | succ n => exact ⟨_, _, .name n hn, by omega, by omega⟩
      obtain ⟨name, q, hturn, hpq, hq⟩ := hnext
      obtain ⟨ns, r, hloop, hr, hbytes⟩ := ih (stop - q) (by omega) hq rfl
      exact ⟨name.toList ++ ns, r, .turn (Nat.ne_of_lt hp) hturn hloop, hr, hbytes⟩

theorem examines_behind (hstep : step ≤ 1) (hlast : mem (stop - 1) ≠ 0) (hpos : 0 < stop) :
    Examines mem stop step stop := by
  obtain ⟨ns, q, hloop, hq, hbytes⟩ := loop_open_name hstep hlast hpos
  exact ⟨ns, q, hloop, Nat.ne_of_lt hq, Nat.le_of_lt hq, hbytes⟩

/-- Only a list that ends with a NUL keeps the loop inside. -/
theorem stays_inside_iff (hstep : step ≤ 1) (hpos : 0 < stop) :
    StaysInside mem stop step ↔ mem (stop - 1) = 0 := by
  constructor
  · intro h
    by_contra hlast
    exact Nat.lt_irrefl stop (h.inside stop (examines_behind hstep hlast hpos))
  · intro hlast
    exact ⟨loop_ends hstep hlast (Nat.zero_le stop), fun j hj => examines_within hstep hlast hj⟩

section Lists

variable {bs cs : List UInt8}

theorem slice_length : (slice mem p n).length = n := by simp [slice]

theorem slice_add : slice mem p (n + m) = slice mem p n ++ slice mem (p + n) m := by
  simp [slice, List.range_add, Function.comp_def, Nat.add_assoc]

theorem slice_append_iff : slice mem p (bs ++ cs).length = bs ++ cs ↔
    slice mem p bs.length = bs ∧ slice mem (p + bs.length) cs.length = cs := by
  rw [List.length_append, slice_add]
  constructor
  · exact fun h => List.append_inj h slice_length
  · rintro ⟨hbs, hcs⟩
    rw [hbs, hcs]

theorem slice_cons_iff {b : UInt8} : slice mem p (b :: bs).length = b :: bs ↔
    mem p = b ∧ slice mem (p + 1) bs.length = bs := by
  have h := @slice_append_iff mem p [b] bs
  simpa [slice] using h

theorem slice_strlen (h : slice mem p n = bs) (hb : 0 ∉ bs) (hnul : mem (p + n) = 0) :
    IsStrlen mem p n := by
  refine ⟨hnul, fun i hi he => hb ?_⟩
  rw [← h, ← he]
  exact List.mem_map_of_mem (List.mem_range.mpr hi)

theorem slice_last (hmem : slice mem 0 bs.length = bs) (hne : bs ≠ []) :
    bs.getLast? = some (mem (bs.length - 1)) := by
  have hlen : bs.length ≠ 0 := List.length_eq_zero_iff.not.mpr hne
  rw [← hmem, slice_length, slice, List.getLast?_map, List.getLast?_range, if_neg hlen]
  simp

/-- The pointer passes the NUL behind a name with the name, or in a turn of its own. -/
theorem loop_past {ns : List Name} (hstep : step ≤ 1) (hnul : mem p = 0) (hp : p < stop)
    (h : Loop mem stop step (p + 1) ns q) : Loop mem stop step (p + step) ns q := by
  rcases Nat.le_one_iff_eq_zero_or_eq_one.mp hstep with rfl | rfl
  · exact .turn (Nat.ne_of_lt hp) (.nul hnul) h
  · exact h

/-- The names of a terminated list in memory are what the loop finds. -/
theorem loop_names {ns : List Name} (hstep : step ≤ 1) (h : names bs = some ns)
    (hmem : slice mem p bs.length = bs) (hstop : stop = p + bs.length) :
    Loop mem stop step p ns stop := by
  induction bs using name_list_induction generalizing p ns with
  | nil =>
    cases h
    subst hstop
    exact .start _
  | unterminated bs hne hno =>
    rw [names_unterminated hne hno] at h
    cases h
  | name n rest hn ih =>
    rw [names_append hn] at h
    obtain ⟨ns', hns', rfl⟩ := Option.map_eq_some_iff.mp h
    obtain ⟨hname, hrest⟩ := slice_append_iff.mp hmem
    obtain ⟨hnul, hrest⟩ := slice_cons_iff.mp hrest
    rw [List.length_append, List.length_cons] at hstop
    have hloop := ih hns' hrest (by omega)
    by_cases hnil : n = []
    · subst hnil
      exact .turn (by omega) (.nul hnul) hloop
    · obtain ⟨k, hk⟩ := Nat.exists_eq_succ_of_ne_zero (List.length_eq_zero_iff.not.mpr hnil)
      have hstr := slice_strlen hname hn hnul
      have hpast := loop_past hstep hnul (by omega) hloop
      rw [hk] at hname hstr hpast
      rw [if_neg hnil, ← hname]
      exact .turn (by omega) (.name k hstr) hpast

/-- There is one complete loop over a terminated list in memory. -/
theorem loop_names_iff {ns ns' : List Name} (hstep : step ≤ 1) (h : names bs = some ns)
    (hmem : slice mem 0 bs.length = bs) :
    Loop mem bs.length step 0 ns' bs.length ↔ ns' = ns := by
  have hloop := loop_names hstep h hmem (Nat.zero_add bs.length).symm
  constructor
  · exact fun h' => loop_unique h' rfl hloop
  · rintro rfl
    exact hloop

theorem loop_steps {step' : ℕ} {ns : List Name} (hstep : step ≤ 1) (hstep' : step' ≤ 1)
    (hpos : 0 < stop) (hlast : mem (stop - 1) = 0) :
    Loop mem stop step 0 ns stop ↔ Loop mem stop step' 0 ns stop := by
  have hlen : (slice mem 0 stop).length = stop := slice_length
  have hmem : slice mem 0 (slice mem 0 stop).length = slice mem 0 stop := by rw [hlen]
  have hne : slice mem 0 stop ≠ [] := List.ne_nil_of_length_pos (by rwa [hlen])
  have hend := slice_last hmem hne
  rw [hlen, hlast] at hend
  have hnames := names_segments hne hend
  have hiff := @loop_names_iff mem step _ _ ns hstep hnames hmem
  have hiff' := @loop_names_iff mem step' _ _ ns hstep' hnames hmem
  rw [hlen] at hiff hiff'
  exact hiff.trans hiff'.symm

/-- The counting loop over a list is defined where the loop in memory stays inside. -/
theorem counts_iff_stays_inside (hstep : step ≤ 1) (hmem : slice mem 0 bs.length = bs)
    (hne : bs ≠ []) (k : ℕ) :
    countNames step 0 bs k ≠ none ↔ StaysInside mem bs.length step := by
  have hlast := slice_last hmem hne
  rw [stays_inside_iff hstep (List.length_pos_iff.mpr hne), count_names hstep, ne_eq,
    Option.map_eq_none_iff, names_none_iff hne, not_not, hlast, Option.some_inj]

end Lists

end NameScans
