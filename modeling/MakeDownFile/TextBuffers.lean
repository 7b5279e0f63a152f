import Mathlib.Data.List.Basic
import Mathlib.Data.List.TakeWhile

/-! # Text in buffers of a fixed size -/
namespace TextBuffers

/-- The bytes of an ASCII literal, without its NUL. -/
def ascii (s : String) : List UInt8 := s.toList.map fun c => UInt8.ofNat c.toNat

/-- The bytes before the first NUL, or all of them. -/
def text (bs : List UInt8) : List UInt8 := bs.takeWhile (· ≠ 0)

theorem text_length_le (bs : List UInt8) : (text bs).length ≤ bs.length :=
  (List.takeWhile_sublist _).length_le

theorem text_replicate (n : ℕ) : text (List.replicate n 0) = [] := by
  cases n with
  | zero => rfl
  | succ n => simp [text, List.replicate_succ]

theorem text_append_replicate (bs : List UInt8) (n : ℕ) :
    text (bs ++ List.replicate n 0) = text bs := by
  induction bs with
  | nil => exact text_replicate n
  | cons b bs ih =>
    by_cases hb : b = 0
    · simp [text, hb]
    · have hne : decide (b ≠ 0) = true := by simpa using hb
      simp only [text, List.cons_append, List.takeWhile_cons, hne, if_true] at ih ⊢
      rw [ih]

/-- Text that does not fill the bytes ends at a NUL. -/
theorem nul_of_text_short {bs : List UInt8} (h : (text bs).length < bs.length) : 0 ∈ bs := by
  by_contra hno
  have hall : text bs = bs := by
    refine List.takeWhile_eq_self_iff.mpr fun b hb => ?_
    have hne : b ≠ 0 := fun he => hno (he ▸ hb)
    simpa using hne
  rw [hall] at h
  exact absurd h (Nat.lt_irrefl _)

structure Buffer (size : ℕ) where
  bytes : List UInt8
  length_bytes : bytes.length = size

/-- What one read of at most `limit` bytes brings. -/
structure Chunk (limit : ℕ) where
  bytes : List UInt8
  length_le : bytes.length ≤ limit

namespace Buffer

variable {size limit : ℕ}

def zeros (size : ℕ) : Buffer size := ⟨List.replicate size 0, List.length_replicate⟩

/-- A read into the start of a buffer that has room for it. -/
def overwrite (b : Buffer size) (c : Chunk limit) (h : limit ≤ size) : Buffer size where
  bytes := c.bytes ++ b.bytes.drop c.bytes.length
  length_bytes := by
    have := c.length_le
    have := b.length_bytes
    rw [List.length_append, List.length_drop]
    omega

theorem text_overwrite_zeros (c : Chunk limit) (h : limit ≤ size) :
    text ((zeros size).overwrite c h).bytes = text c.bytes := by
  simp only [overwrite, zeros, List.drop_replicate]
  exact text_append_replicate _ _

/-- The text of the buffer ends within it, and there is room behind it. -/
def HasRoom (b : Buffer size) (suffix : List UInt8) : Prop :=
  0 ∈ b.bytes ∧ (text b.bytes).length + suffix.length + 1 ≤ size

instance (b : Buffer size) (suffix : List UInt8) : Decidable (b.HasRoom suffix) :=
  inferInstanceAs (Decidable (_ ∧ _))

theorem hasRoom_iff {b : Buffer size} {suffix : List UInt8} :
    b.HasRoom suffix ↔ (text b.bytes).length + suffix.length + 1 ≤ size := by
  refine ⟨fun h => h.2, fun h => ⟨nul_of_text_short ?_, h⟩⟩
  rw [b.length_bytes]
  omega

/-- strcat is undefined where it would leave the buffer. -/
def strcat (b : Buffer size) (suffix : List UInt8) : Option (Buffer size) :=
  if h : b.HasRoom suffix then
    some {
      bytes := text b.bytes ++ suffix ++
        0 :: b.bytes.drop ((text b.bytes).length + suffix.length + 1)
      length_bytes := by
        have := h.2
        have := b.length_bytes
        simp only [List.length_append, List.length_cons, List.length_drop]
        omega }
  else none

theorem strcat_some {b : Buffer size} {suffix : List UInt8} (h : b.HasRoom suffix) :
    ∃ b', b.strcat suffix = some b' :=
  ⟨_, dif_pos h⟩

end Buffer

end TextBuffers
