import MakeDownFile.ByteBuffers
import Mathlib.Data.Nat.Digits.Lemmas

/-! # DER encodings of integers and sequences -/
namespace DerEncoding

open ByteBuffers

/-- The bytes of a number with the most significant first, none for 0. -/
def natBytes (n : ℕ) : List UInt8 := ((Nat.digits 256 n).map UInt8.ofNat).reverse

/-- A length below 128 is its own byte, a longer one is preceded by how many bytes it takes. -/
def lengthBytes (n : ℕ) : List UInt8 :=
  if n < 128 then [UInt8.ofNat n]
  else UInt8.ofNat (128 + (natBytes n).length) :: natBytes n

def tagged (tag : UInt8) (contents : List UInt8) : List UInt8 :=
  tag :: (lengthBytes contents.length ++ contents)

/-- The first bit is the sign, so a leading byte from 128 on gets a zero before it. -/
def integerContents (n : ℕ) : List UInt8 :=
  match natBytes n with
  | [] => [0]
  | b :: bs => if 128 ≤ b.toNat then 0 :: b :: bs else b :: bs

def integer (n : ℕ) : List UInt8 := tagged 0x02 (integerContents n)

def sequence (items : List (List UInt8)) : List UInt8 := tagged 0x30 items.flatten

example : integer 128 = [2, 2, 0, 128] := by decide

end DerEncoding
