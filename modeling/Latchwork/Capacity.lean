import Latchwork.Error

/-!
# Capacity

Numbers and lists are held in the memory of a machine. One that is too large to be counted at all is
refused as a number that is too large, on every machine. One that can be counted, but not held by
the machine at hand, is refused for a lack of memory.
-/

namespace Latchwork

/-- The machine that the program runs on: how many bytes it can set aside at once. -/
class Machine where
  memory : Nat

namespace Capacity

/-- The number of bits in one digit of a number. -/
def digitBits : Nat := 30

/-- The number of bytes that a digit takes. -/
def digitBytes : Nat := 4

/-- The most digits that a number can have: sizes in bytes are signed numbers of 64 bits. -/
def digitLimit : Nat := (power 2 63 - 25) / digitBytes

/-- The number of digits that are set aside for a power of two. -/
def powerDigits (exponent : Nat) : Nat :=
  exponent / digitBits + 1 + if exponent % digitBits = 0 then 0 else 1

/-- Checks that a power of two can be held. -/
def checkPower [Machine] (exponent : Nat) : Except Error Unit :=
  if digitLimit < powerDigits exponent then .error .numberTooLarge
  else if Machine.memory < digitBytes * powerDigits exponent then .error .outOfMemory
  else .ok ()

/-- The most elements that a list can have: lengths are signed numbers of 64 bits. -/
def countLimit : Nat := power 2 63 - 1

/-- The number of bytes that an element of a list takes. -/
def elementBytes : Nat := 8

/-- Checks that a list with so many elements can be held. -/
def checkList [Machine] (length : Nat) : Except Error Unit :=
  if countLimit < length then .error .numberTooLarge
  else if Machine.memory < elementBytes * length then .error .outOfMemory
  else .ok ()

end Capacity

namespace Desktop

/-- A machine that sets aside up to 32 gibibytes. -/
scoped instance machine : Machine := ⟨power 2 35⟩

end Desktop

end Latchwork
