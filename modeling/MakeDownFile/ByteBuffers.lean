import Mathlib.Data.List.Basic
import Mathlib.Data.Nat.Digits.Defs

/-! # Byte buffers: positional values, fixed-width reads and reversed copies -/
namespace ByteBuffers

def littleEndian (bs : List UInt8) : ℕ := Nat.ofDigits 256 (bs.map UInt8.toNat)

def bigEndian (bs : List UInt8) : ℕ := bs.foldl (fun n b => b.toNat + 256 * n) 0

theorem littleEndian_reverse (bs : List UInt8) : littleEndian bs.reverse = bigEndian bs := by
  simp only [littleEndian, bigEndian, Nat.ofDigits_eq_foldr, List.foldr_map,
    List.foldr_reverse]
  rfl

def readDword (buf : List UInt8) (offset : ℕ) : Option ℕ :=
  if offset + 4 ≤ buf.length then some (littleEndian ((buf.drop offset).take 4)) else none

variable {α β : Type*}

theorem mapM_some {f : α → Option β} {g : α → β} {l : List α}
    (h : ∀ x ∈ l, f x = some (g x)) : l.mapM f = some (l.map g) := by
  induction l with
  | nil => rfl
  | cons x l ih =>
    rw [List.mapM_cons, h x List.mem_cons_self, ih fun y hy => h y (List.mem_cons_of_mem x hy)]
    rfl

/-- Copies `size` elements last to first; `none` when the read leaves the buffer. -/
def reversedCopy (buf : List α) (size : ℕ) : Option (List α) :=
  (List.range size).mapM fun i => buf[size - i - 1]?

theorem reversedCopy_eq {buf : List α} {size : ℕ} (h : size ≤ buf.length) :
    reversedCopy buf size = some (buf.take size).reverse := by
  cases buf with
  | nil =>
    have hs : size = 0 := by simpa using h
    subst hs
    rfl
  | cons x xs =>
    have hget : ∀ i ∈ List.range size,
        (x :: xs)[size - i - 1]? = some ((x :: xs).getD (size - i - 1) x) := by
      intro i hi
      have hlt : size - i - 1 < (x :: xs).length := by
        have := List.mem_range.mp hi
        omega
      rw [← List.getElem_eq_getD (h := hlt), List.getElem?_eq_getElem hlt]
    rw [reversedCopy, mapM_some hget]
    congr 1
    apply List.ext_getElem
    · simp only [List.length_map, List.length_range, List.length_reverse, List.length_take]
      omega
    · intro i hi _
      have hs : i < size := by simpa using hi
      have hlt : size - i - 1 < (x :: xs).length := by omega
      have hidx : (List.take size (x :: xs)).length - 1 - i = size - i - 1 := by
        rw [List.length_take]
        omega
      simp only [List.getElem_map, List.getElem_range, List.getElem_reverse, hidx,
        List.getElem_take]
      exact (List.getElem_eq_getD x).symm

end ByteBuffers
