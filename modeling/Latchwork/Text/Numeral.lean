import Latchwork.Bits
import Latchwork.Text.Blank
import Latchwork.Text.Digit

/-!
# Integer numerals

Integers are written in decimal, or in lower-case hexadecimal where a format asks for it. Reading
is more lenient than writing: blanks around the numeral, one sign, digits of any script, and single
low lines between digits are accepted. Decimal numerals have at most `digitLimit` digits.
-/

namespace Latchwork.Numeral

open Text

/-- The decimal numeral of a natural number. -/
def decimal (n : Nat) : String := String.ofList (Nat.toDigits 10 n)

/-- The decimal numeral of an integer, with a minus sign below zero. -/
def integer : Int → String
  | .ofNat n => decimal n
  | .negSucc n => "-" ++ decimal (n + 1)

/-- The hexadecimal numeral of a natural number. -/
def hexadecimal (n : Nat) : String := String.ofList (Nat.toDigits 16 n)

/-- A hexadecimal numeral filled up with zeros to a width. -/
def hexadecimalOfWidth (width n : Nat) : String :=
  let digits := Nat.toDigits 16 n
  String.ofList (List.replicate (width - digits.length) '0' ++ digits)

/-- Decimal numerals with more digits than this are neither read nor written. -/
def digitLimit : Nat := 4300

/-- The exponent of the first power of two that has more decimal digits than can be written. -/
def digitBits : Nat := 14285

/-- Has the number more decimal digits than can be written? -/
def isTooLong (n : Nat) : Bool := decide (digitLimit < (Nat.toDigits 10 n).length)

/-- A number has too many digits from a power of ten on. -/
theorem isTooLong_iff {n : Nat} : isTooLong n = true ↔ power 10 digitLimit ≤ n := by
  rw [isTooLong, decide_eq_true_iff, ← Nat.not_le,
    Nat.length_toDigits_le_iff (by decide) (by decide), Nat.not_lt]

/-- A number has no more digits than can be written below a power of ten. -/
theorem isTooLong_eq_false_iff {n : Nat} : isTooLong n = false ↔ n < power 10 digitLimit := by
  rw [← Bool.not_eq_true, isTooLong_iff, Nat.not_le]

/-- The digits after the first: each may have one low line before it. -/
def laterDigits? : List Char → Option (List Nat)
  | [] => some []
  | '_' :: c :: rest =>
    (digitValue? c).bind fun d => (laterDigits? rest).map (d :: ·)
  | c :: rest => (digitValue? c).bind fun d => (laterDigits? rest).map (d :: ·)

/-- The digits of an unsigned numeral, most significant first. -/
def digits? : List Char → Option (List Nat)
  | [] => none
  | c :: rest => (digitValue? c).bind fun d => (laterDigits? rest).map (d :: ·)

/-- The number with these decimal digits, most significant first. -/
def ofDigits (digits : List Nat) : Nat := digits.foldl (fun n d => 10 * n + d) 0

/-- Reads an unsigned numeral of at most `digitLimit` digits. -/
def natural? (s : List Char) : Option Nat :=
  (digits? s).bind fun ds => if ds.length ≤ digitLimit then some (ofDigits ds) else none

/-- Reads a numeral with an optional sign and no blanks. -/
def signed? : List Char → Option Int
  | '-' :: rest => (natural? rest).map fun n => -(n : Int)
  | '+' :: rest => (natural? rest).map fun n => (n : Int)
  | s => (natural? s).map fun n => (n : Int)

/-- Reads an integer numeral, with blanks around it. -/
def integer? (s : List Char) : Option Int := signed? (trimEnds isNumeralBlank s)

end Latchwork.Numeral
