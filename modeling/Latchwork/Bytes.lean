import Latchwork.Text.Numeral

/-!
# Byte strings

Byte strings as lists of bytes, their hexadecimal form, the bytes of a string in UTF-8, and numbers
with the least significant byte first.
-/

namespace Latchwork

/-- A string of bytes. -/
abbrev Bytes := List UInt8

namespace Bytes

/-- The bytes of a string in UTF-8. -/
def ofString (s : String) : Bytes := s.toUTF8.data.toList

/-- The string that the bytes encode in UTF-8. -/
def string? (b : Bytes) : Option String := String.fromUTF8? ⟨b.toArray⟩

/-- The bytes in hexadecimal, two digits each. -/
def hexadecimal (b : Bytes) : String :=
  String.join (b.map fun byte => Numeral.hexadecimalOfWidth 2 byte.toNat)

/-- The lowest bytes of a number, least significant first. -/
def littleEndian : (width : Nat) → Nat → Bytes
  | 0, _ => []
  | width + 1, n => UInt8.ofNat n :: littleEndian width (n / 256)

/-- A number in bytes has the width that was asked for. -/
@[simp] theorem length_littleEndian (width n : Nat) : (littleEndian width n).length = width := by
  induction width generalizing n with
  | zero => rfl
  | succ width ih => simp [littleEndian, ih]

/-- The number that bytes stand for, least significant first. -/
def toNat : Bytes → Nat
  | [] => 0
  | byte :: rest => byte.toNat + 256 * toNat rest

end Bytes

end Latchwork
