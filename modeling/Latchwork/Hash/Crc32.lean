import Latchwork.Bytes

/-!
# CRC-32

The cyclic redundancy check that archives carry: reflected, with the state inverted before and
after.
-/

namespace Latchwork.Crc32

/-- Shifts one bit out of the state. -/
def shift (state : UInt32) : UInt32 :=
  if state &&& 1 = 1 then (state >>> 1) ^^^ 0xedb88320 else state >>> 1

/-- Takes one byte into the state. -/
def step (state : UInt32) (byte : UInt8) : UInt32 :=
  Nat.repeat shift 8 (state ^^^ byte.toUInt32)

/-- The checksum of a byte string. -/
def checksum (b : Bytes) : UInt32 := (b.foldl step 0xffffffff) ^^^ 0xffffffff

end Latchwork.Crc32
