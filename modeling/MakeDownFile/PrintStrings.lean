import MakeDownFile.NameLists
import Mathlib.Data.List.Infix

/-! # Printing a list of names

print_strings walks through a buffer of NUL terminated strings. It looks at the byte behind
every string before it asks whether the buffer ends there, and passes over one NUL only. -/
namespace PrintStrings

open NameLists

structure Output where
  lines : List Name
  examined : List ℕ
  deriving DecidableEq, Repr

/-- strchr(start, '\0'), which does not return NULL; `none` where no NUL follows. -/
def strchr (mem : List UInt8) (start : ℕ) : Option ℕ :=
  (strlen (mem.drop start)).map (start + ·)

/-- The loop with its pointer and its position. All bytes that can be read are in `mem`, and
reading others is undefined. -/
@[semireducible]
def printFrom (mem : List UInt8) (memorySize start pos : ℕ) : Option Output :=
  if pos < memorySize then
    match strchr mem start with
    | none => none
    | some stop =>
      match mem[stop + 1]? with
      | none => none
      | some next =>
        let skip := if next = 0 then 1 else 0
        (printFrom mem memorySize (stop + 1 + skip) (pos + (stop - start + 1) + skip)).map
          fun out => ⟨(mem.drop start).take (stop - start) :: out.lines,
            List.range' start (stop - start + 2) ++ out.examined⟩
  else some ⟨[], []⟩
termination_by memorySize - pos

def printStrings (mem : List UInt8) (memorySize : ℕ) : Option Output :=
  printFrom mem memorySize 0 0

/-- The loop stays within the buffer, and prints a line for every name in it. -/
def PrintsNames (buf behind : List UInt8) : Prop :=
  ∃ out, printStrings (buf ++ behind) buf.length = some out ∧
    (∀ i ∈ out.examined, i < buf.length) ∧ names buf = some out.lines

/-- A list for print_strings: no NUL in front, two at the end, and nowhere three. -/
def Paired (buf : List UInt8) : Prop :=
  buf.head? ≠ some 0 ∧ [0, 0] <:+ buf ∧ ¬ [0, 0, 0] <:+: buf

section Paired

variable {n rest : List UInt8} {b : UInt8}

/-- NULs are not part of a string in front of them. -/
theorem infix_behind (hn : 0 ∉ n) : [0, 0, 0] <:+: n ++ rest ↔ [0, 0, 0] <:+: rest := by
  induction n with
  | nil => rfl
  | cons b n ih =>
    have hb : (0 : UInt8) ≠ b := fun he => hn (he ▸ List.mem_cons_self)
    have hrest := ih fun hm => hn (List.mem_cons_of_mem b hm)
    rw [List.cons_append, List.infix_cons_iff, List.cons_prefix_cons, hrest]
    constructor
    · intro h
      rcases h with h | h
      · exact absurd h.1 hb
      · exact h
    · exact Or.inr

theorem suffix_behind (hn : 0 ∉ n) : [0, 0] <:+ n ++ rest ↔ [0, 0] <:+ rest := by
  induction n with
  | nil => rfl
  | cons b n ih =>
    have hb : (0 : UInt8) ≠ b := fun he => hn (he ▸ List.mem_cons_self)
    have hrest := ih fun hm => hn (List.mem_cons_of_mem b hm)
    rw [List.cons_append, List.suffix_cons_iff, hrest]
    constructor
    · intro h
      rcases h with h | h
      · exact absurd (List.cons.inj h).1 hb
      · exact h
    · exact Or.inr

theorem head_behind (hn : 0 ∉ n) : (n ++ 0 :: rest).head? ≠ some 0 ↔ n ≠ [] := by
  cases n with
  | nil => simp
  | cons b n =>
    have hb : b ≠ 0 := fun he => hn (he ▸ List.mem_cons_self)
    simp [hb]

theorem suffix_nul (hb : b ≠ 0) : [0, 0] <:+ 0 :: b :: rest ↔ [0, 0] <:+ b :: rest := by
  rw [List.suffix_cons_iff]
  constructor
  · intro h
    rcases h with h | h
    · exact absurd (List.cons.inj (List.cons.inj h).2).1.symm hb
    · exact h
  · exact Or.inr

theorem infix_nul (hb : b ≠ 0) : [0, 0, 0] <:+: 0 :: b :: rest ↔ [0, 0, 0] <:+: b :: rest := by
  rw [List.infix_cons_iff, List.cons_prefix_cons, List.cons_prefix_cons]
  constructor
  · intro h
    rcases h with h | h
    · exact absurd h.2.1.symm hb
    · exact h
  · exact Or.inr

theorem paired_of_head (hb : b ≠ 0) :
    Paired (b :: rest) ↔ [0, 0] <:+ b :: rest ∧ ¬ [0, 0, 0] <:+: b :: rest := by
  have hhead : (b :: rest).head? ≠ some 0 := fun h => hb (Option.some.inj h)
  exact ⟨fun h => h.2, fun h => ⟨hhead, h⟩⟩

theorem paired_string (hn : 0 ∉ n) (hb : b ≠ 0) :
    Paired (n ++ 0 :: b :: rest) ↔ n ≠ [] ∧ Paired (b :: rest) := by
  rw [Paired, head_behind hn, suffix_behind hn, infix_behind hn, suffix_nul hb, infix_nul hb,
    paired_of_head hb]

theorem paired_skip (hn : 0 ∉ n) :
    Paired (n ++ 0 :: 0 :: rest) ↔ n ≠ [] ∧ (rest = [] ∨ Paired rest) := by
  rw [Paired, head_behind hn, suffix_behind hn, infix_behind hn]
  apply and_congr_right
  intro _
  cases rest with
  | nil => exact iff_of_true ⟨List.suffix_refl _, by decide⟩ (Or.inl rfl)
  | cons b rest =>
    by_cases hb : b = 0
    · subst hb
      have hthree : [0, 0, 0] <:+: (0 : UInt8) :: 0 :: 0 :: rest := ⟨[], rest, rfl⟩
      refine iff_of_false (fun h => h.2 hthree) fun h => ?_
      rcases h with h | h
      · cases h
      · exact h.1 rfl
    · have hsuffix : [0, 0] <:+ 0 :: 0 :: b :: rest ↔ [0, 0] <:+ 0 :: b :: rest := by
        rw [List.suffix_cons_iff]
        exact ⟨fun h => h.resolve_left (by simp), Or.inr⟩
      have hinfix : [0, 0, 0] <:+: 0 :: 0 :: b :: rest ↔ [0, 0, 0] <:+: 0 :: b :: rest := by
        rw [List.infix_cons_iff, List.cons_prefix_cons, List.cons_prefix_cons,
          List.cons_prefix_cons]
        simp [Ne.symm hb]
      rw [hsuffix, hinfix, suffix_nul hb, infix_nul hb, ← paired_of_head hb]
      simp

theorem not_paired_end (hn : 0 ∉ n) : ¬ Paired (n ++ [0]) := by
  intro h
  have hone := (suffix_behind hn).mp h.2.1
  exact absurd hone (by decide)

end Paired

inductive Terminated : List UInt8 → Prop where
  | nil : Terminated []
  | last (n) (hn : 0 ∉ n) : Terminated (n ++ [0])
  | string (n b rest) (hn : 0 ∉ n) (hb : b ≠ 0) (h : Terminated (b :: rest)) :
      Terminated (n ++ 0 :: b :: rest)
  | skip (n rest) (hn : 0 ∉ n) (h : Terminated rest) : Terminated (n ++ 0 :: 0 :: rest)

theorem terminated_of_last {bs : List UInt8} (hlast : bs.getLast? = some 0) : Terminated bs := by
  induction hlen : bs.length using Nat.strongRecOn generalizing bs with
  | ind k ih =>
    obtain ⟨n, rest, rfl, hn⟩ := List.eq_append_cons_of_mem (List.mem_of_getLast? hlast)
    rw [List.length_append, List.length_cons] at hlen
    cases rest with
    | nil => exact .last n hn
    | cons b rest =>
      rw [List.length_cons] at hlen
      have hrest : (b :: rest).getLast? = some 0 := by
        rwa [List.getLast?_append_of_ne_nil n (List.cons_ne_nil 0 _),
          List.getLast?_cons_cons] at hlast
      by_cases hb : b = 0
      · subst hb
        cases rest with
        | nil => exact .skip n [] hn .nil
        | cons c rest =>
          rw [List.getLast?_cons_cons] at hrest
          rw [List.length_cons] at hlen
          have hless : (c :: rest).length < k := by
            rw [List.length_cons]
            omega
          exact .skip n (c :: rest) hn (ih _ hless hrest rfl)
      · have hless : (b :: rest).length < k := by
          rw [List.length_cons]
          omega
        exact .string n b rest hn hb (ih _ hless hrest rfl)

def loopAt (front rest behind : List UInt8) : Option Output :=
  printFrom (front ++ (rest ++ behind)) (front ++ rest).length front.length front.length

/-- A turn at `p` prints `n`, and looks at its bytes, its NUL and the byte behind that. -/
def Output.turn (p : ℕ) (n : Name) (out : Output) : Output :=
  ⟨n :: out.lines, List.range' p (n.length + 2) ++ out.examined⟩

section Loop

variable {front n rest behind : List UInt8} {b : UInt8}

theorem loop_nil (front behind : List UInt8) : loopAt front [] behind = some ⟨[], []⟩ := by
  rw [loopAt, printFrom, List.append_nil, if_neg (Nat.lt_irrefl _)]

theorem loop_turn (hn : 0 ∉ n) :
    loopAt front (n ++ 0 :: rest) behind = (rest ++ behind).head?.bind fun next =>
      (printFrom (front ++ (n ++ 0 :: rest ++ behind)) (front ++ (n ++ 0 :: rest)).length
        (front.length + n.length + 1 + if next = 0 then 1 else 0)
        (front.length + n.length + 1 + if next = 0 then 1 else 0)).map
          (Output.turn front.length n) := by
  have hmem : (front ++ (n ++ 0 :: rest ++ behind)).drop front.length =
      n ++ 0 :: (rest ++ behind) := by simp
  have hstr : strchr (front ++ (n ++ 0 :: rest ++ behind)) front.length =
      some (front.length + n.length) := by
    rw [strchr, hmem, strlen_some hn]
    rfl
  have hname : ((front ++ (n ++ 0 :: rest ++ behind)).drop front.length).take n.length = n := by
    rw [hmem, List.take_left]
  have hnext : (front ++ (n ++ 0 :: rest ++ behind))[front.length + n.length + 1]? =
      (rest ++ behind).head? := by
    rw [Nat.add_assoc, ← List.getElem?_drop, hmem, List.getElem?_append_right (Nat.le_succ _)]
    simp [List.head?_eq_getElem?]
  have hp : front.length < (front ++ (n ++ 0 :: rest)).length := by
    rw [List.length_append, List.length_append, List.length_cons]
    omega
  have hlen : front.length + (n.length + 1) = front.length + n.length + 1 := rfl
  rw [loopAt, printFrom, if_pos hp, hstr]
  simp only [hnext, Nat.add_sub_cancel_left, hname, hlen]
  cases (rest ++ behind).head? with
  | none => rfl
  | some next => rfl

theorem loop_string (hn : 0 ∉ n) (hb : b ≠ 0) :
    loopAt front (n ++ 0 :: b :: rest) behind =
      (loopAt (front ++ (n ++ [0])) (b :: rest) behind).map (Output.turn front.length n) := by
  rw [loop_turn hn, List.cons_append, List.head?_cons, Option.bind_some, if_neg hb, loopAt]
  simp [Nat.add_assoc]

theorem loop_skip (hn : 0 ∉ n) :
    loopAt front (n ++ 0 :: 0 :: rest) behind =
      (loopAt (front ++ (n ++ [0, 0])) rest behind).map (Output.turn front.length n) := by
  rw [loop_turn hn, List.cons_append, List.head?_cons, Option.bind_some, if_pos rfl, loopAt]
  simp [Nat.add_assoc]

theorem loop_last (hn : 0 ∉ n) :
    loopAt front (n ++ [0]) behind =
      behind.head?.map fun _ => Output.turn front.length n ⟨[], []⟩ := by
  rw [loop_turn hn, List.nil_append]
  cases behind.head? with
  | none => rfl
  | some next =>
    rw [Option.bind_some, printFrom, if_neg (by simp; omega)]
    rfl

theorem examined_turn {p size : ℕ} {out : Output} :
    (∀ i ∈ (out.turn p n).examined, i < size) ↔
      p + n.length + 1 < size ∧ ∀ i ∈ out.examined, i < size := by
  simp only [Output.turn, List.mem_append, List.mem_range'_1]
  constructor
  · exact fun h => ⟨h _ (Or.inl ⟨by omega, by omega⟩), fun i hi => h i (Or.inr hi)⟩
  · intro ⟨hlast, hrest⟩ i hi
    rcases hi with hi | hi
    · omega
    · exact hrest i hi

def Lists (size : ℕ) (bs : List UInt8) (o : Option Output) : Prop :=
  ∃ out, o = some out ∧ (∀ i ∈ out.examined, i < size) ∧ names bs = some out.lines

theorem lists_turn {size p : ℕ} {o : Option Output} (hn : 0 ∉ n) (hin : p + n.length + 1 < size) :
    Lists size (n ++ 0 :: rest) (o.map (Output.turn p n)) ↔ n ≠ [] ∧ Lists size rest o := by
  constructor
  · intro ⟨out, hout, hexam, hnames⟩
    obtain ⟨out', rfl, rfl⟩ := Option.map_eq_some_iff.mp hout
    obtain ⟨hne, hnames'⟩ := (names_line hn).mp hnames
    exact ⟨hne, out', rfl, (examined_turn.mp hexam).2, hnames'⟩
  · intro ⟨hne, out, hout, hexam, hnames⟩
    rw [hout]
    exact ⟨out.turn p n, rfl, examined_turn.mpr ⟨hin, hexam⟩, (names_line hn).mpr ⟨hne, hnames⟩⟩

/-- The loop goes right over what is left of the buffer if that is in pairs. -/
theorem lists_iff (h : Terminated rest) :
    Lists (front ++ rest).length rest (loopAt front rest behind) ↔ rest = [] ∨ Paired rest := by
  induction h generalizing front with
  | nil =>
    rw [loop_nil]
    exact iff_of_true ⟨_, rfl, List.forall_mem_nil _, names_nil⟩ (Or.inl rfl)
  | last n hn =>
    refine iff_of_false (fun h => ?_) fun h => ?_
    · obtain ⟨out, hout, hexam, -⟩ := h
      rw [loop_last hn] at hout
      obtain ⟨next, -, rfl⟩ := Option.map_eq_some_iff.mp hout
      have hin := (examined_turn.mp hexam).1
      simp only [List.length_append, List.length_singleton] at hin
      omega
    · rcases h with h | h
      · simp at h
      · exact not_paired_end hn h
  | string n b rest hn hb _ ih =>
    have hne : n ++ 0 :: b :: rest ≠ [] := by simp
    have hsplit : front ++ (n ++ [0]) ++ b :: rest = front ++ (n ++ 0 :: b :: rest) := by simp
    have hrest := @ih (front ++ (n ++ [0]))
    rw [hsplit, or_iff_right (List.cons_ne_nil b rest)] at hrest
    rw [loop_string hn hb, lists_turn hn (by simp; omega), hrest, or_iff_right hne,
      paired_string hn hb]
  | skip n rest hn _ ih =>
    have hne : n ++ 0 :: 0 :: rest ≠ [] := by simp
    have hsplit : front ++ (n ++ [0, 0]) ++ rest = front ++ (n ++ 0 :: 0 :: rest) := by simp
    have hrest := @ih (front ++ (n ++ [0, 0]))
    rw [hsplit] at hrest
    rw [loop_skip hn, lists_turn hn (by simp; omega), or_iff_right hne, paired_skip hn, ← hrest]
    simp only [Lists, names_skip]

def ListsLoosely (bound : ℕ) (bs : List UInt8) (o : Option Output) : Prop :=
  ∃ out, o = some out ∧ (∀ i ∈ out.examined, i < bound) ∧
    names bs = some (out.lines.filter (· ≠ []))

theorem lists_loosely_turn {bound p : ℕ} {o : Option Output} (hn : 0 ∉ n)
    (hin : p + n.length + 1 < bound) (h : ListsLoosely bound rest o) :
    ListsLoosely bound (n ++ 0 :: rest) (o.map (Output.turn p n)) := by
  obtain ⟨out, rfl, hexam, hnames⟩ := h
  refine ⟨out.turn p n, rfl, examined_turn.mpr ⟨hin, hexam⟩, ?_⟩
  rw [names_append hn, hnames]
  by_cases hnil : n = []
  · simp [Output.turn, hnil]
  · simp [Output.turn, hnil]

theorem loop_returns (h : Terminated rest) (hbehind : behind ≠ []) :
    ListsLoosely ((front ++ rest).length + 1) rest (loopAt front rest behind) := by
  induction h generalizing front with
  | nil =>
    rw [loop_nil]
    exact ⟨_, rfl, List.forall_mem_nil _, names_nil⟩
  | last n hn =>
    obtain ⟨c, behind, rfl⟩ := List.exists_cons_of_ne_nil hbehind
    have hnil : ListsLoosely ((front ++ (n ++ [0])).length + 1) [] (some ⟨[], []⟩) :=
      ⟨_, rfl, List.forall_mem_nil _, names_nil⟩
    rw [loop_last hn]
    exact lists_loosely_turn hn (by simp) hnil
  | string n b rest hn hb _ ih =>
    have hsplit : front ++ (n ++ [0]) ++ b :: rest = front ++ (n ++ 0 :: b :: rest) := by simp
    have hrest := @ih (front ++ (n ++ [0]))
    rw [hsplit] at hrest
    rw [loop_string hn hb]
    exact lists_loosely_turn hn (by simp) hrest
  | skip n rest hn _ ih =>
    have hsplit : front ++ (n ++ [0, 0]) ++ rest = front ++ (n ++ 0 :: 0 :: rest) := by simp
    have hrest := @ih (front ++ (n ++ [0, 0]))
    rw [hsplit, ListsLoosely, ← names_skip] at hrest
    rw [loop_skip hn]
    exact lists_loosely_turn hn (by simp) hrest

/-- Where a byte behind the buffer can be read, print_strings ends and looks at no other one
there. Besides the names it prints only empty lines. -/
theorem print_strings_returns {buf : List UInt8} (hlast : buf.getLast? = some 0)
    (hbehind : behind ≠ []) :
    ∃ out, printStrings (buf ++ behind) buf.length = some out ∧
      (∀ i ∈ out.examined, i < buf.length + 1) ∧ names buf = some (out.lines.filter (· ≠ [])) :=
  @loop_returns [] buf behind (terminated_of_last hlast) hbehind

end Loop

/-- print_strings is right for the buffers that end with a NUL and are in pairs, and for no
others, whatever is behind them. -/
theorem print_strings_iff (buf behind : List UInt8) (hlast : buf.getLast? = some 0) :
    PrintsNames buf behind ↔ Paired buf := by
  have hne : buf ≠ [] := fun h => by rw [h] at hlast; cases hlast
  have h := @lists_iff [] buf behind (terminated_of_last hlast)
  rwa [or_iff_right hne] at h

theorem print_strings_sample :
    [65, 0, 66, 67, 0, 0].getLast? = some (0 : UInt8) ∧
      (PrintsNames [65, 0, 66, 67, 0, 0] [1] ↔ Paired [65, 0, 66, 67, 0, 0]) :=
  ⟨rfl, print_strings_iff [65, 0, 66, 67, 0, 0] [1] rfl⟩

/-- A single name with its NUL: the byte behind the buffer is looked at. -/
theorem prints_behind_one_name :
    ¬ ∀ buf behind : List UInt8, buf.getLast? = some 0 → PrintsNames buf behind := by
  intro h
  have hterm : Terminated [65, 0] := .last [65] (by decide)
  have hpaired := (@lists_iff [] [65, 0] [66, 0] hterm).mp (h [65, 0] [66, 0] rfl)
  rcases hpaired with hnil | hpaired
  · cases hnil
  · exact @not_paired_end [65] (by decide) hpaired

end PrintStrings
