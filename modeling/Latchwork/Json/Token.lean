import Latchwork.Json.Value

/-!
# Tokens of a JSON text

A text is cut into tokens, each with the offset of its first code point. A string that is not well
formed, or a numeral that is too long, is a faulty token: it counts only if the grammar asks for a
value or a key at its place. Code points that start no token are stray.
-/

namespace Latchwork.Json

/-- What can be wrong with the syntax of a text. -/
inductive SyntaxFault where
  | expectingValue
  | expectingKey
  | expectingColon
  | expectingComma
  | extraData
  | unterminatedString
  | controlCharacter
  | badEscape
  | badUnicodeEscape
  | byteOrderMark
  deriving DecidableEq, Repr

/-- The wording of a syntax fault. -/
def SyntaxFault.message : SyntaxFault → String
  | .expectingValue => "Expecting value"
  | .expectingKey => "Expecting property name enclosed in double quotes"
  | .expectingColon => "Expecting ':' delimiter"
  | .expectingComma => "Expecting ',' delimiter"
  | .extraData => "Extra data"
  | .unterminatedString => "Unterminated string starting at"
  | .controlCharacter => "Invalid control character at"
  | .badEscape => "Invalid \\escape"
  | .badUnicodeEscape => "Invalid \\uXXXX escape"
  | .byteOrderMark => "Unexpected UTF-8 BOM (decode using utf-8-sig)"

/-- Why reading stops: a syntax fault at an offset, an integer with too many digits, or values that
are nested too deeply. -/
inductive Fault where
  | malformed (fault : SyntaxFault) (offset : Nat)
  | tooManyDigits (count : Nat)
  | tooDeep
  deriving DecidableEq, Repr

/-- A token of the format. -/
inductive Token where
  | openObject
  | closeObject
  | openList
  | closeList
  | comma
  | colon
  | text (s : Text)
  | scalar (v : Value)
  | faulty (fault : Fault)
  | stray
  deriving Repr

/-- A token and the offset of its first code point. -/
structure Located where
  offset : Nat
  token : Token
  deriving Repr

/-- Blanks between tokens. -/
def isSpace (p : CodePoint) : Bool := p = ' ' || p = '\t' || p = '\n' || p = '\r'

/-- The value of a hexadecimal digit. -/
def hexDigit? (p : CodePoint) : Option Nat :=
  p.char?.bind fun c =>
    if c.isDigit then some (c.toNat - 48)
    else if 'a' ≤ c && c ≤ 'f' then some (c.toNat - 87)
    else if 'A' ≤ c && c ≤ 'F' then some (c.toNat - 55)
    else none

/-- The value of four hexadecimal digits. -/
def hexQuad? (a b c d : CodePoint) : Option Nat := do
  let a ← hexDigit? a
  let b ← hexDigit? b
  let c ← hexDigit? c
  let d ← hexDigit? d
  return ((a * 16 + b) * 16 + c) * 16 + d

/-- The first half of a surrogate pair. -/
def isHighSurrogate (n : Nat) : Bool := decide (0xD800 ≤ n) && decide (n < 0xDC00)

/-- The second half of a surrogate pair. -/
def isLowSurrogate (n : Nat) : Bool := decide (0xDC00 ≤ n) && decide (n < 0xE000)

/-- The code point that a surrogate pair stands for. -/
def pointOfPair (high low : Nat) : CodePoint :=
  .ofValue (0x10000 + (high - 0xD800) * 0x400 + (low - 0xDC00))

/-- The character that a one-letter escape stands for. -/
def escaped? (c : Char) : Option Char :=
  if c = Text.doubleQuote || c = '\\' || c = '/' then some c
  else if c = 'b' then some (Char.ofNat 8)
  else if c = 'f' then some (Char.ofNat 12)
  else if c = 'n' then some '\n'
  else if c = 'r' then some '\r'
  else if c = 't' then some '\t'
  else none

/-- The second half of a surrogate pair, if the text after an escape goes on with its escape. That
escape must not end the text either. -/
def lowSurrogate? (offset : Nat) (s : List CodePoint) : Except Fault (Option Nat) :=
  match s with
  | .char '\\' :: .char 'u' :: a :: b :: c :: d :: _ :: _ =>
    match hexQuad? a b c d with
    | some low => .ok (if isLowSurrogate low then some low else none)
    | none => .error (.malformed .badUnicodeEscape (offset + 1))
  | _ => .ok none

/-- The code points of a string up to its closing quote, and the offset after that quote. `start`
is the offset of the opening quote and `offset` that of the next code point. The four digits of an
escape must not end the text. -/
def scanString (start : Nat) :
    (offset : Nat) → List CodePoint → Except Fault (List CodePoint × Nat)
  | _, [] => .error (.malformed .unterminatedString start)
  | _, [.char '\\'] => .error (.malformed .unterminatedString start)
  | offset, .char '\\' :: .char 'u' :: a :: b :: c :: d :: next :: rest => do
    let some code := hexQuad? a b c d | throw (.malformed .badUnicodeEscape (offset + 1))
    let low ← if isHighSurrogate code then lowSurrogate? (offset + 6) (next :: rest) else pure none
    match low with
    | some low =>
      let (points, stop) ← scanString start (offset + 12) (rest.drop 5)
      return (pointOfPair code low :: points, stop)
    | none =>
      let (points, stop) ← scanString start (offset + 6) (next :: rest)
      return (.ofValue code :: points, stop)
  | offset, .char '\\' :: p :: rest => do
    let some e := p.char?.bind escaped?
      | throw (if p = 'u' then .malformed .badUnicodeEscape (offset + 1)
               else .malformed .badEscape offset)
    let (points, stop) ← scanString start (offset + 2) rest
    return (.char e :: points, stop)
  | offset, p :: rest =>
    if p = Text.doubleQuote then .ok ([], offset + 1)
    else if p.value < 32 then .error (.malformed .controlCharacter offset)
    else do
      let (points, stop) ← scanString start (offset + 1) rest
      return (p :: points, stop)
  termination_by _ s => s.length

/-- The longest start of a text that holds nothing but what numerals are made of. -/
def numeralChars : List CodePoint → List Char
  | .char c :: rest =>
    if c.isDigit || ['+', '-', '.', 'e', 'E'].contains c then c :: numeralChars rest else []
  | _ => []

/-- The parts of a numeral: sign, digits before the point, digits after it, exponent with sign. -/
structure NumeralParts where
  negative : Bool
  whole : List Char
  fraction : Option (List Char)
  exponent : Option (List Char × List Char)

namespace NumeralParts

/-- The longest numeral at the start of a text. A zero is not followed by further digits; the point
and the exponent mark need digits after them. -/
def scan? (s : List Char) : Option NumeralParts :=
  let negative := s.head? == some '-'
  let body := if negative then s.drop 1 else s
  let whole := if body.head? == some '0' then ['0'] else body.takeWhile Char.isDigit
  if whole.isEmpty then none
  else
    let afterWhole := body.drop whole.length
    let fraction :=
      let digits := (afterWhole.drop 1).takeWhile Char.isDigit
      if afterWhole.head? == some '.' && !digits.isEmpty then some digits else none
    let afterFraction := match fraction with
      | some digits => afterWhole.drop (1 + digits.length)
      | none => afterWhole
    let exponent :=
      if afterFraction.head? == some 'e' || afterFraction.head? == some 'E' then
        let sign := ((afterFraction.drop 1).take 1).filter fun c => c = '+' || c = '-'
        let digits := (afterFraction.drop (1 + sign.length)).takeWhile Char.isDigit
        if digits.isEmpty then none else some (sign, digits)
      else none
    some ⟨negative, whole, fraction, exponent⟩

/-- The number of characters of a numeral. -/
def length (p : NumeralParts) : Nat :=
  p.negative.toNat + p.whole.length +
    (match p.fraction with | some ds => 1 + ds.length | none => 0) +
    (match p.exponent with | some (sign, ds) => 1 + sign.length + ds.length | none => 0)

/-- The number that a list of digit characters spells. -/
def natOf (digits : List Char) : Nat := Numeral.ofDigits (digits.map fun c => c.toNat - 48)

/-- The token of a numeral: an integer unless it has a fraction or an exponent. -/
def token (p : NumeralParts) : Token :=
  match p.fraction, p.exponent with
  | none, none =>
    if Numeral.digitLimit < p.whole.length then .faulty (.tooManyDigits p.whole.length)
    else .scalar (.int (if p.negative then -(natOf p.whole : Int) else natOf p.whole))
  | fraction, exponent =>
    let after := fraction.getD []
    let power : Int := match exponent with
      | some (['-'], ds) => -(natOf ds : Int)
      | some (_, ds) => natOf ds
      | none => 0
    .scalar (.real (.ofDecimal p.negative (natOf (p.whole ++ after)) (power - after.length)))

end NumeralParts

/-- The words that are values by themselves. -/
def constants : List (String × Value) :=
  [("null", .null), ("true", .bool true), ("false", .bool false), ("NaN", .real .nan),
    ("Infinity", .real (.infinite false)), ("-Infinity", .real (.infinite true))]

/-- The token at the start of a text that is not a blank, and the number of its code points. -/
def scanToken (offset : Nat) (s : List CodePoint) : Token × Nat :=
  match constants.find? fun c => (Text.ofString c.1).points.isPrefixOf s with
  | some (word, v) => (.scalar v, word.length)
  | none =>
    match NumeralParts.scan? (numeralChars s) with
    | some parts => (parts.token, parts.length)
    | none =>
      match s with
      | [] => (.stray, 1)
      | p :: rest =>
        if p = '\x7b' then (.openObject, 1)
        else if p = '\x7d' then (.closeObject, 1)
        else if p = '[' then (.openList, 1)
        else if p = ']' then (.closeList, 1)
        else if p = ',' then (.comma, 1)
        else if p = ':' then (.colon, 1)
        else if p = Text.doubleQuote then
          match scanString offset (offset + 1) rest with
          | .ok (points, stop) => (.text ⟨points⟩, stop - offset)
          | .error fault => (.faulty fault, 1)
        else (.stray, 1)

/-- The tokens of a text whose first code point has the given offset. -/
def tokens (offset : Nat) : List CodePoint → List Located
  | [] => []
  | p :: rest =>
    if isSpace p then tokens (offset + 1) rest
    else
      let (token, size) := scanToken offset (p :: rest)
      ⟨offset, token⟩ :: tokens (offset + 1 + (size - 1)) (rest.drop (size - 1))
  termination_by s => s.length

end Latchwork.Json
