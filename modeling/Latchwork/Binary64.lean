import Latchwork.Text.Numeral

/-!
# Binary floating-point numbers

A number of the 64-bit binary format is a mantissa below `2 ^ 53` times a power of two, with sign,
an infinity, or not a number. Reading a decimal rounds to the nearest such number, a tie to the even
mantissa. Writing chooses the fewest decimal digits that read back, and of those the nearest. All
arithmetic is on natural numbers, so both are exact.
-/

namespace Latchwork

/-- A number of the 64-bit binary format. A finite one is `mantissa * 2 ^ exponent`. -/
inductive Binary64 where
  | nan
  | infinite (negative : Bool)
  | finite (negative : Bool) (mantissa : Nat) (exponent : Int)
  deriving DecidableEq, Repr

namespace Binary64

/-- Mantissas stay below this bound. -/
def mantissaBound : Nat := power 2 53

/-- The least exponent; numbers with it may have any mantissa below the bound. -/
def leastExponent : Int := -1074

/-- The greatest exponent. -/
def greatestExponent : Int := 971

/-- The nearest natural number to a quotient, a tie going to the even one. -/
def roundQuotient (num den : Nat) : Nat :=
  let q := num / den
  let twice := 2 * (num % den)
  if twice < den then q else if den < twice then q + 1 else q + q % 2

/-- The integer part of the binary logarithm of a positive quotient. -/
def floorLog2 (num den : Nat) : Int :=
  let guess := (num.log2 : Int) - (den.log2 : Int)
  if den * power 2 guess.toNat ≤ num * power 2 (-guess).toNat then guess else guess - 1

/-- The number of the format nearest to a positive quotient. -/
def ofQuotient (negative : Bool) (num den : Nat) : Binary64 :=
  let exponent := max (floorLog2 num den - 52) leastExponent
  let mantissa := roundQuotient (num * power 2 (-exponent).toNat) (den * power 2 exponent.toNat)
  let (mantissa, exponent) :=
    if mantissa = mantissaBound then (mantissaBound / 2, exponent + 1) else (mantissa, exponent)
  if greatestExponent < exponent then .infinite negative else .finite negative mantissa exponent

/-- The number of the format nearest to `digits * 10 ^ exponent`. Decimals far outside the range are
decided by their size alone. -/
def ofDecimal (negative : Bool) (digits : Nat) (exponent : Int) : Binary64 :=
  let size := exponent + (Nat.toDigits 10 digits).length
  if digits = 0 || decide (size < -330) then .finite negative 0 leastExponent
  else if 310 < size then .infinite negative
  else ofQuotient negative (digits * power 10 exponent.toNat) (power 10 (-exponent).toNat)

/-- The integer that the number equals, if there is one. -/
def toInt? : Binary64 → Option Int
  | .finite negative mantissa exponent =>
    let den := power 2 (-exponent).toNat
    if mantissa % den = 0 then
      let magnitude : Int := (mantissa / den * power 2 exponent.toNat : Nat)
      some (if negative then -magnitude else magnitude)
    else none
  | _ => none

/-- Is the number below zero? -/
def isNegative : Binary64 → Bool
  | .finite negative mantissa _ => negative && mantissa != 0
  | .infinite negative => negative
  | .nan => false

/-- The number of decimal places before the point of a positive quotient; zero or less when the
quotient is below one tenth. -/
def decimalPoint (num den : Nat) : Int :=
  if den ≤ num then (Nat.toDigits 10 (num / den)).length
  else
    let zeros := (List.range 400).takeWhile fun k => decide (num * power 10 (k + 1) < den)
    0 - (zeros.length : Int)

/-- The interval of reals that read back as one number, and the number itself, as numerators over a
common denominator. -/
structure Interval where
  low : Nat
  value : Nat
  high : Nat
  den : Nat
  closed : Bool

/-- The reals that round to `mantissa * 2 ^ exponent`: half-way to the neighbour on each side, where
the lower neighbour is nearer at a power of two. The ends round to even mantissas. -/
def interval (mantissa : Nat) (exponent : Int) : Interval :=
  let below := if mantissa = mantissaBound / 2 && decide (leastExponent < exponent) then 1 else 2
  let scale := power 2 (exponent - 2).toNat
  { low := (4 * mantissa - below) * scale
    value := 4 * mantissa * scale
    high := (4 * mantissa + 2) * scale
    den := power 2 (2 - exponent).toNat
    closed := mantissa % 2 == 0 }

/-- Does `digits * 10 ^ exponent` lie in the interval? -/
def Interval.holds (i : Interval) (digits : Nat) (exponent : Int) : Bool :=
  let x := digits * power 10 exponent.toNat * i.den
  let low := i.low * power 10 (-exponent).toNat
  let high := i.high * power 10 (-exponent).toNat
  if i.closed then decide (low ≤ x) && decide (x ≤ high) else decide (low < x) && decide (x < high)

/-- The decimal of the given number of digits that is nearest to the value among its two neighbours
on that grid, if one of them lies in the interval. -/
def Interval.nearestOfLength? (i : Interval) (point : Int) (length : Nat) : Option (Nat × Int) :=
  let exponent := point - length
  let num := i.value * power 10 (-exponent).toNat
  let den := i.den * power 10 exponent.toNat
  let floor := num / den
  let twice := 2 * (num % den)
  let upFirst := decide (den < twice) || (twice == den && floor % 2 == 1)
  let candidates := if upFirst then [floor + 1, floor] else [floor, floor + 1]
  (candidates.find? fun d => i.holds d exponent).map fun d => (d, exponent)

/-- The fewest decimal digits that read back as a positive number, with their exponent. -/
def shortest (mantissa : Nat) (exponent : Int) : Nat × Int :=
  let i := interval mantissa exponent
  let point := decimalPoint i.value i.den
  ((List.range 17).findSome? fun k => i.nearestOfLength? point (k + 1)).getD (0, 0)

/-- Digits without the zeros at their end. -/
def significantDigits (digits : Nat) : List Char :=
  ((Nat.toDigits 10 digits).reverse.dropWhile (· == '0')).reverse

/-- An exponent with its sign and at least two digits. -/
def exponentText (e : Int) : String :=
  let digits := Numeral.decimal e.natAbs
  (if e < 0 then "-" else "+") ++ (if digits.length < 2 then "0" ++ digits else digits)

/-- A positive decimal: positional while the point stands between the fourth place before the digits
and the sixteenth place, with an exponent otherwise. A point always has a digit on both sides. -/
def decimalText (digits : Nat) (exponent : Int) : String :=
  let all := Nat.toDigits 10 digits
  let kept := significantDigits digits
  let point := exponent + all.length
  let size : Int := kept.length
  let zeros (k : Int) := List.replicate k.toNat '0'
  if -4 < point && decide (point ≤ 16) then
    if point ≤ 0 then "0." ++ String.ofList (zeros (-point) ++ kept)
    else if size ≤ point then String.ofList (kept ++ zeros (point - size)) ++ ".0"
    else String.ofList (kept.take point.toNat) ++ "." ++ String.ofList (kept.drop point.toNat)
  else
    let fraction := kept.drop 1
    String.ofList (kept.take 1) ++
      (if fraction.isEmpty then "" else "." ++ String.ofList fraction) ++
      "e" ++ exponentText (point - 1)

/-- The text of a number. -/
def text : Binary64 → String
  | .nan => "nan"
  | .infinite negative => if negative then "-inf" else "inf"
  | .finite negative mantissa exponent =>
    (if negative then "-" else "") ++
      (if mantissa = 0 then "0.0"
       else
        let (digits, e) := shortest mantissa exponent
        decimalText digits e)

end Binary64

end Latchwork
