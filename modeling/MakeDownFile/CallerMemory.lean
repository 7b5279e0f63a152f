import Mathlib.Data.List.Basic

/-! # Text in the memory of a caller

Memory has no end of its own. A function that fills a buffer is told how much of it is the
buffer's. -/
namespace CallerMemory

abbrev Memory := ℕ → UInt8

def write (m : Memory) (start : ℕ) (bs : List UInt8) : Memory :=
  fun i => if start ≤ i then bs.getD (i - start) (m i) else m i

def fill (m : Memory) (size : ℕ) : Memory := write m 0 (List.replicate size 0)

/-- Memory without a NUL, in which no string ends. -/
def ones : Memory := fun _ => 1

def putText (m : Memory) (t : List UInt8) : Memory := write (write m 0 t) t.length [0]

def bytes (m : Memory) (k : ℕ) : List UInt8 := (List.range k).map m

/-- The first NUL. There is none to be found where the bytes before the end have none. -/
def strlen (m : Memory) (n : ℕ) : Option ℕ := (List.range n).find? fun k => m k = 0

def cString (m : Memory) (n : ℕ) : Option (List UInt8) := (strlen m n).map (bytes m)

def EndsWithin (n : ℕ) (m : Memory) (t : List UInt8) : Prop :=
  ∃ k < n, m k = 0 ∧ bytes m k = t

def SameFrom (n : ℕ) (m m' : Memory) : Prop := ∀ i, n ≤ i → m' i = m i

section Memory

variable {m m' m'' : Memory} {start i k n size : ℕ} {bs t : List UInt8}

theorem write_inside (h : k < bs.length) : write m start bs (start + k) = bs[k] := by
  simp [write, h]

theorem write_before (h : i < start) : write m start bs i = m i := by
  have hlt : ¬ start ≤ i := by omega
  simp [write, hlt]

theorem write_behind (h : start + bs.length ≤ i) : write m start bs i = m i := by
  have hle : bs.length ≤ i - start := by omega
  simp [write, hle]

theorem length_bytes : (bytes m k).length = k := by simp [bytes]

theorem bytes_zero : bytes m 0 = [] := rfl

theorem bytes_congr (h : ∀ i < k, m' i = m i) : bytes m' k = bytes m k := by
  apply List.map_congr_left
  intro i hi
  exact h i (List.mem_range.mp hi)

theorem bytes_write : bytes (write m 0 bs) bs.length = bs := by
  apply List.ext_getElem length_bytes
  intro i hi hlt
  have hin : write m 0 bs (0 + i) = bs[i] := write_inside hlt
  simpa [bytes] using hin

theorem nul_putText : putText m t t.length = 0 :=
  write_inside (k := 0) (by simp)

theorem bytes_putText : bytes (putText m t) t.length = t := by
  have hsame : bytes (putText m t) t.length = bytes (write m 0 t) t.length :=
    bytes_congr fun i hi => write_before hi
  rw [hsame, bytes_write]

theorem endsWithin_putText (h : t.length < n) : EndsWithin n (putText m t) t :=
  ⟨t.length, h, nul_putText, bytes_putText⟩

theorem fill_zero : fill m 0 = m := by
  funext i
  exact write_behind (Nat.zero_le i)

theorem fill_first (h : 0 < size) : fill m size 0 = 0 := by
  have hlt : 0 < (List.replicate size (0 : UInt8)).length := by simpa using h
  have hin : fill m size (0 + 0) = (List.replicate size (0 : UInt8)).get ⟨0, hlt⟩ :=
    write_inside hlt
  simpa using hin

theorem endsWithin_nil_iff (h : 0 < n) : EndsWithin n m [] ↔ m 0 = 0 := by
  constructor
  · rintro ⟨k, -, hk, hnil⟩
    have hzero : k = 0 := by simpa [bytes] using hnil
    rwa [hzero] at hk
  · intro h0
    exact ⟨0, h, h0, bytes_zero⟩

theorem sameFrom_refl : SameFrom n m m := fun _ _ => rfl

theorem sameFrom_trans (h : SameFrom n m m') (h' : SameFrom n m' m'') : SameFrom n m m'' :=
  fun i hi => (h' i hi).trans (h i hi)

theorem sameFrom_write (h : start + bs.length ≤ n) : SameFrom n m (write m start bs) :=
  fun _ hi => write_behind (Nat.le_trans h hi)

theorem sameFrom_fill (h : size ≤ n) : SameFrom n m (fill m size) := by
  apply sameFrom_write
  simpa using h

theorem sameFrom_putText (h : t.length < n) : SameFrom n m (putText m t) := by
  apply sameFrom_trans
  · exact sameFrom_write (by omega : 0 + t.length ≤ n)
  · exact sameFrom_write h

theorem strlen_eq_some_iff : strlen m n = some k ↔ k < n ∧ m k = 0 ∧ 0 ∉ bytes m k := by
  simp only [strlen, List.find?_range_eq_some, decide_eq_true_eq, List.mem_range, bytes,
    List.mem_map, not_exists, not_and]
  constructor
  · rintro ⟨hk, hlt, hbefore⟩
    refine ⟨hlt, hk, fun i hi hzero => ?_⟩
    simpa [hzero] using hbefore i hi
  · rintro ⟨hlt, hk, hbefore⟩
    refine ⟨hk, hlt, fun i hi => ?_⟩
    simpa using hbefore i hi

/-- What a C function sees of a buffer is a text without a NUL. -/
theorem cString_eq_some_iff : cString m n = some t ↔ EndsWithin n m t ∧ 0 ∉ t := by
  simp only [cString, Option.map_eq_some_iff, strlen_eq_some_iff]
  constructor
  · rintro ⟨k, ⟨hlt, hk, hno⟩, rfl⟩
    exact ⟨⟨k, hlt, hk, rfl⟩, hno⟩
  · rintro ⟨⟨k, hlt, hk, rfl⟩, hno⟩
    exact ⟨k, ⟨hlt, hk, hno⟩, rfl⟩

theorem strlen_of_cString (h : cString m n = some t) : strlen m n = some t.length := by
  obtain ⟨k, hk, rfl⟩ := Option.map_eq_some_iff.mp h
  rw [hk, length_bytes]

theorem length_of_cString (h : cString m n = some t) : t.length < n := by
  obtain ⟨⟨k, hlt, -, rfl⟩, -⟩ := cString_eq_some_iff.mp h
  rwa [length_bytes]

theorem cString_putText (hlt : t.length < n) (hno : 0 ∉ t) : cString (putText m t) n = some t :=
  cString_eq_some_iff.mpr ⟨endsWithin_putText hlt, hno⟩

theorem cString_nil_iff (h : 0 < n) : cString m n = some [] ↔ m 0 = 0 := by
  rw [cString_eq_some_iff, endsWithin_nil_iff h]
  simp

theorem strlen_ones : strlen ones n = none := by
  simp [strlen, ones]

end Memory

end CallerMemory
