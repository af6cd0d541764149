import Mathlib

/-! Numbers as byte sequences of a fixed width, in either byte order. -/
namespace Bes.Lib.Endian
open List

inductive ByteOrder where
  | little
  | big
deriving DecidableEq

def littleBytes : Nat → Nat → List UInt8
  | 0, _ => []
  | width + 1, n => UInt8.ofNat n :: littleBytes width (n / 256)

@[simp] theorem length_littleBytes (width n : Nat) : (littleBytes width n).length = width := by
  induction width generalizing n with
  | zero => rfl
  | succ width ih => simp [littleBytes, ih]

def arranged {α : Type*} : ByteOrder → List α → List α
  | .little, bytes => bytes
  | .big, bytes => bytes.reverse

def bytesOf (order : ByteOrder) (width n : Nat) : List UInt8 := arranged order (littleBytes width n)

section

variable {α : Type*}

end

section

variable {α : Type*}

def word (width : Nat) (bytes : List α) (e : Nat) : List α := (bytes.drop (e * width)).take width

end

end Bes.Lib.Endian
