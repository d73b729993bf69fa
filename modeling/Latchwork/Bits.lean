/-!
# Powers, and bitwise operations on integers

Conjunction, disjunction and exclusive disjunction of integers of any size and sign. A negative
number stands for an endless row of set bits above its digits, as in two's complement: the bits of
`-(n + 1)` are those of `n`, each inverted.
-/

namespace Latchwork

/-- A power of a number, by the core instance whatever else is imported. -/
abbrev power (base exponent : Nat) : Nat :=
  @HPow.hPow Nat Nat Nat (@instHPow Nat Nat instPowNat) base exponent

namespace Bits

/-- The bits of the first number that are not set in the second. -/
def without (m n : Nat) : Nat := m - (m &&& n)

/-- The bits set in both numbers. -/
def and : Int → Int → Int
  | .ofNat m, .ofNat n => .ofNat (m &&& n)
  | .ofNat m, .negSucc n => .ofNat (without m n)
  | .negSucc m, .ofNat n => .ofNat (without n m)
  | .negSucc m, .negSucc n => .negSucc (m ||| n)

/-- The bits set in one of the numbers or in both. -/
def or : Int → Int → Int
  | .ofNat m, .ofNat n => .ofNat (m ||| n)
  | .ofNat m, .negSucc n => .negSucc (without n m)
  | .negSucc m, .ofNat n => .negSucc (without m n)
  | .negSucc m, .negSucc n => .negSucc (m &&& n)

/-- The bits set in exactly one of the numbers. -/
def xor : Int → Int → Int
  | .ofNat m, .ofNat n => .ofNat (m ^^^ n)
  | .ofNat m, .negSucc n => .negSucc (m ^^^ n)
  | .negSucc m, .ofNat n => .negSucc (m ^^^ n)
  | .negSucc m, .negSucc n => .ofNat (m ^^^ n)

/-- Conjunction with one leaves the lowest bit, whatever the sign. -/
theorem one_and (z : Int) : and 1 z = z % 2 := by
  cases z with
  | ofNat n =>
    show Int.ofNat (1 &&& n) = Int.ofNat n % 2
    rw [Nat.one_and_eq_mod_two]
    rfl
  | negSucc n =>
    show Int.ofNat (without 1 n) = Int.negSucc n % 2
    have h : 1 &&& n = n % 2 := Nat.one_and_eq_mod_two n
    simp only [without, h, Int.ofNat_eq_natCast]
    omega

end Bits

end Latchwork
