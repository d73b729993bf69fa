import Latchwork.Bytes
import Latchwork.Error

/-!
# Texts in bytes

The content of a file is a text in UTF-8, where halves of surrogate pairs have no place. The name of
a file may hold bytes that are no UTF-8: each of them is a half in the text of the name, so that
every name can be read and given back. Other halves have no place in names either.
-/

namespace Latchwork

namespace CodePoint

/-- Is the code point half of a surrogate pair? -/
def isHalf (p : CodePoint) : Bool := p.char?.isNone

/-- The byte that a half stands for in a file name. -/
def rawByte? : CodePoint → Option UInt8
  | .half index =>
    if 0x480 ≤ index.val ∧ index.val < 0x500 then some (UInt8.ofNat (index.val - 0x400)) else none
  | .char _ => none

/-- The half that stands for a byte in a file name. -/
def ofRawByte (b : UInt8) : CodePoint := .ofValue (0xDC00 + b.toNat)

end CodePoint

namespace Bytes

/-- The number of bytes of a character by its first one; none starts with zero of them. -/
def sequenceLength (first : UInt8) : Nat :=
  if first < 0x80 then 1
  else if first < 0xC2 then 0
  else if first < 0xE0 then 2
  else if first < 0xF0 then 3
  else if first < 0xF5 then 4
  else 0

/-- Can the byte stand after the first one of a character? -/
def isContinuation (byte : UInt8) : Bool := decide (0x80 ≤ byte) && decide (byte < 0xC0)

/-- Can the byte stand in second place? Some first bytes leave less room: characters are written in
as few bytes as possible, and halves and numbers past the last character are none. -/
def isSecond (first byte : UInt8) : Bool :=
  isContinuation byte &&
    if first = 0xE0 then decide (0xA0 ≤ byte)
    else if first = 0xED then decide (byte < 0xA0)
    else if first = 0xF0 then decide (0x90 ≤ byte)
    else if first = 0xF4 then decide (byte < 0x90)
    else true

/-- What is wrong with the character at the start of bytes, and with how many of them. -/
def leadingFault? (first : UInt8) (rest : Bytes) : Option (DecodeFault × Nat) :=
  let later := rest.take (sequenceLength first - 1)
  let isGood (place : UInt8 × Nat) : Bool :=
    if place.2 = 0 then isSecond first place.1 else isContinuation place.1
  if sequenceLength first = 0 then some (.startByte, 1)
  else
    match later.zipIdx.find? fun place => !isGood place with
    | some place => some (.continuationByte, place.2 + 1)
    | none =>
      if later.length < sequenceLength first - 1 then some (.endOfData, later.length + 1) else none

/-- The failure to decode bytes from a position on. -/
def refuseFirstFault (position : Nat) : Bytes → Error
  | [] => .undecodable .endOfData [] position
  | first :: rest =>
    match leadingFault? first rest with
    | some (fault, count) => .undecodable fault ((first :: rest).take count) position
    | none =>
      refuseFirstFault (position + sequenceLength first) (rest.drop (sequenceLength first - 1))
  termination_by b => b.length

/-- The string that bytes encode in UTF-8. -/
def decoded (b : Bytes) : Except Error String :=
  match b.string? with
  | some s => .ok s
  | none => .error (refuseFirstFault 0 b)

end Bytes

namespace Text

/-- The failure to encode a half, with all halves that follow it directly. -/
def refuseHalf (position : Nat) (half : CodePoint) (rest : List CodePoint) : Error :=
  .unencodable (half :: rest.takeWhile CodePoint.isHalf) position

/-- The failure to encode the first half of a text. -/
def refuseFirstHalf (t : Text) : Error :=
  match t.points.dropWhile fun p => !p.isHalf with
  | half :: rest => refuseHalf (t.points.length - rest.length - 1) half rest
  | [] => .unencodable [] 0

/-- A text in UTF-8. -/
def utf8 (t : Text) : Except Error Bytes :=
  match t.string? with
  | some s => .ok (Bytes.ofString s)
  | none => .error t.refuseFirstHalf

/-- A string has bytes. -/
@[simp] theorem utf8_ofString (s : String) : (ofString s).utf8 = .ok (Bytes.ofString s) := by
  simp [utf8]

/-- The bytes of a part of a file name that starts at a position. -/
def nameBytesFrom (position : Nat) : List CodePoint → Except Error Bytes
  | [] => .ok []
  | p :: rest =>
    match p.char?, p.rawByte? with
    | some c, _ =>
      (nameBytesFrom (position + 1) rest).map (Bytes.ofString (String.singleton c) ++ ·)
    | none, some b => (nameBytesFrom (position + 1) rest).map (b :: ·)
    | none, none => .error (refuseHalf position p rest)

/-- The bytes of a file name. -/
def nameBytes (t : Text) : Except Error Bytes := nameBytesFrom 0 t.points

/-- The character at the start of bytes, and the number of its bytes. -/
def leadingChar? (b : Bytes) : Option (Char × Nat) :=
  [1, 2, 3, 4].findSome? fun size =>
    match (Bytes.string? (b.take size)).map String.toList with
    | some [c] => some (c, size)
    | _ => none

/-- The code points of a file name in bytes. -/
def pointsOfName : Bytes → List CodePoint
  | [] => []
  | b :: rest =>
    match leadingChar? (b :: rest) with
    | some (c, size) => .char c :: pointsOfName (rest.drop (size - 1))
    | none => .ofRawByte b :: pointsOfName rest
  termination_by b => b.length

/-- The text of a file name in bytes. -/
def ofName (b : Bytes) : Text := ⟨pointsOfName b⟩

end Text

end Latchwork
