import Latchwork.Bits
import Latchwork.Bytes

/-!
# BLAKE2b

The unkeyed hash BLAKE2b with a digest of 1 to 64 bytes. The digest size is a parameter of the hash:
digests of different sizes of one message have nothing in common.
-/

namespace Latchwork.Blake2b

/-- The initial chaining value before the parameters are mixed in. -/
def initial : Vector UInt64 8 := #v[
  0x6a09e667f3bcc908, 0xbb67ae8584caa73b, 0x3c6ef372fe94f82b, 0xa54ff53a5f1d36f1,
  0x510e527fade682d1, 0x9b05688c2b3e6c1f, 0x1f83d9abfb41bd6b, 0x5be0cd19137e2179]

/-- The order in which message words are used, two at a time, in ten rounds. -/
def wordOrder : List (List (Fin 16 × Fin 16)) :=
  [[(0, 1), (2, 3), (4, 5), (6, 7), (8, 9), (10, 11), (12, 13), (14, 15)],
    [(14, 10), (4, 8), (9, 15), (13, 6), (1, 12), (0, 2), (11, 7), (5, 3)],
    [(11, 8), (12, 0), (5, 2), (15, 13), (10, 14), (3, 6), (7, 1), (9, 4)],
    [(7, 9), (3, 1), (13, 12), (11, 14), (2, 6), (5, 10), (4, 0), (15, 8)],
    [(9, 0), (5, 7), (2, 4), (10, 15), (14, 1), (11, 12), (6, 8), (3, 13)],
    [(2, 12), (6, 10), (0, 11), (8, 3), (4, 13), (7, 5), (15, 14), (1, 9)],
    [(12, 5), (1, 15), (14, 13), (4, 10), (0, 7), (6, 3), (9, 2), (8, 11)],
    [(13, 11), (7, 14), (12, 1), (3, 9), (5, 0), (15, 4), (8, 6), (2, 10)],
    [(6, 15), (14, 9), (11, 3), (0, 8), (12, 2), (13, 7), (1, 4), (10, 5)],
    [(10, 2), (8, 4), (7, 6), (1, 5), (15, 11), (9, 14), (3, 12), (13, 0)]]

/-- The twelve rounds of a compression: the ten orders, then the first two again. -/
def rounds : List (List (Fin 16 × Fin 16)) := wordOrder ++ wordOrder.take 2

/-- The places that are mixed in a round: four columns, then four diagonals. -/
def places : List (Fin 16 × Fin 16 × Fin 16 × Fin 16) :=
  [(0, 4, 8, 12), (1, 5, 9, 13), (2, 6, 10, 14), (3, 7, 11, 15),
    (0, 5, 10, 15), (1, 6, 11, 12), (2, 7, 8, 13), (3, 4, 9, 14)]

/-- Rotates a word to the right by a count between 1 and 63. -/
def rotate (x : UInt64) (count : UInt64) : UInt64 := (x >>> count) ||| (x <<< (64 - count))

/-- Mixes two message words into four places of the working vector. -/
def mix (v : Vector UInt64 16) (a b c d : Fin 16) (x y : UInt64) : Vector UInt64 16 :=
  let v := v.set a (v[a] + v[b] + x)
  let v := v.set d (rotate (v[d] ^^^ v[a]) 32)
  let v := v.set c (v[c] + v[d])
  let v := v.set b (rotate (v[b] ^^^ v[c]) 24)
  let v := v.set a (v[a] + v[b] + y)
  let v := v.set d (rotate (v[d] ^^^ v[a]) 16)
  let v := v.set c (v[c] + v[d])
  v.set b (rotate (v[b] ^^^ v[c]) 63)

/-- One round over a message block. -/
def round (m : Vector UInt64 16) (v : Vector UInt64 16) (order : List (Fin 16 × Fin 16)) :
    Vector UInt64 16 :=
  (places.zip order).foldl (fun v ((a, b, c, d), (i, j)) => mix v a b c d m[i] m[j]) v

/-- Compresses a block into the chaining value. The count is the number of message bytes up to the
end of the block. -/
def compress (h : Vector UInt64 8) (m : Vector UInt64 16) (count : Nat) (final : Bool) :
    Vector UInt64 8 :=
  let v := h ++ initial
  let v := v.set 12 (v[12] ^^^ UInt64.ofNat count)
  let v := v.set 13 (v[13] ^^^ UInt64.ofNat (count / power 2 64))
  let v := if final then v.set 14 (~~~v[14]) else v
  let v := rounds.foldl (round m) v
  Vector.ofFn fun i : Fin 8 => h[i] ^^^ v[i.val] ^^^ v[i.val + 8]

/-- The words of a block of up to 128 bytes; missing bytes are zero. -/
def words (block : Bytes) : Vector UInt64 16 :=
  Vector.ofFn fun i => UInt64.ofNat (Bytes.toNat ((block.drop (8 * i.val)).take 8))

/-- Compresses the blocks of a message, of which a number of bytes is done. The last block, which
may be partly filled or empty, is marked as final. -/
def compressAll (h : Vector UInt64 8) (done : Nat) (message : Bytes) : Vector UInt64 8 :=
  if hrest : message.drop 128 = [] then
    compress h (words message) (done + message.length) true
  else
    compressAll (compress h (words (message.take 128)) (done + 128) false) (done + 128)
      (message.drop 128)
  termination_by message.length
  decreasing_by
    rw [List.drop_eq_nil_iff] at hrest
    rw [List.length_drop]
    omega

/-- The digest of a message in the given number of bytes. -/
def hash (size : Nat) (message : Bytes) : Bytes :=
  let h := initial.set 0 (initial[0] ^^^ 0x01010000 ^^^ UInt64.ofNat size)
  let h := compressAll h 0 message
  (h.toList.flatMap fun word => Bytes.littleEndian 8 word.toNat).take size

end Latchwork.Blake2b
