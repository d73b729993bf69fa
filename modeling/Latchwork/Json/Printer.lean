import Latchwork.Json.Value

/-!
# Writing a JSON text

Every element of a list and every member of an object stands on a line of its own, two spaces deeper
than what holds it. Strings hold visible characters of the basic set only; all other code points are
escaped, above the basic plane as surrogate pairs.
-/

namespace Latchwork.Json

/-- The escape of a code point below `0x10000`. -/
def unicodeEscape (code : Nat) : List Char :=
  '\\' :: 'u' :: (Numeral.hexadecimalOfWidth 4 code).toList

/-- How one character appears in a string. -/
def stringChar (c : Char) : List Char :=
  if c = Text.doubleQuote || c = '\\' then ['\\', c]
  else if 32 ≤ c.toNat && c.toNat ≤ 126 then [c]
  else if c = '\n' then ['\\', 'n']
  else if c = '\r' then ['\\', 'r']
  else if c = '\t' then ['\\', 't']
  else if c.toNat = 8 then ['\\', 'b']
  else if c.toNat = 12 then ['\\', 'f']
  else if c.toNat < 0x10000 then unicodeEscape c.toNat
  else
    let rest := c.toNat - 0x10000
    unicodeEscape (0xD800 + rest / 0x400) ++ unicodeEscape (0xDC00 + rest % 0x400)

/-- How one code point appears in a string. -/
def stringPoint : CodePoint → List Char
  | .char c => stringChar c
  | .half index => unicodeEscape (CodePoint.half index).value

/-- A text as a string of the format. -/
def stringText (t : Text) : String :=
  String.ofList (Text.doubleQuote :: t.points.flatMap stringPoint ++ [Text.doubleQuote])

/-- The text of a value that holds no others. -/
def scalarText : Value → String
  | .bool true => "true"
  | .bool false => "false"
  | .int z => Numeral.integer z
  | .real .nan => "NaN"
  | .real (.infinite negative) => if negative then "-Infinity" else "Infinity"
  | .real x => x.text
  | .text s => stringText s
  | _ => "null"

/-- A line break and the blanks of a depth. -/
def lineBreak (depth : Nat) : String := "\n" ++ String.ofList (List.replicate (2 * depth) ' ')

mutual
/-- The text of a value at a depth. -/
def textAt (depth : Nat) : Value → String
  | .list [] => "[]"
  | .list items => "[" ++ ",".intercalate (itemTexts (depth + 1) items) ++ lineBreak depth ++ "]"
  | .object [] => "\x7b\x7d"
  | .object members =>
    "\x7b" ++ ",".intercalate (memberTexts (depth + 1) members) ++ lineBreak depth ++ "\x7d"
  | v => scalarText v

/-- The elements of a list, each on its line. -/
def itemTexts (depth : Nat) : List Value → List String
  | [] => []
  | v :: rest => (lineBreak depth ++ textAt depth v) :: itemTexts depth rest

/-- The members of an object, each on its line. -/
def memberTexts (depth : Nat) : List (Text × Value) → List String
  | [] => []
  | (key, v) :: rest =>
    (lineBreak depth ++ stringText key ++ ": " ++ textAt depth v) :: memberTexts depth rest
end

/-- The text of a value. -/
def print (v : Value) : String := textAt 0 v

end Latchwork.Json
