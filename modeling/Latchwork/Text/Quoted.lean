import Latchwork.Text.Numeral
import Latchwork.Text.Printable

/-!
# Quoted text

Messages show a text between quotes. The quote is the single one, unless the text holds a single
quote and no double quote. The quote and the backslash are escaped by a backslash; line feed,
carriage return and tab by a letter; other unprintable code points, halves of surrogate pairs
among them, by their number in the shortest of three widths. All else stands for itself.
-/

namespace Latchwork.Text

/-- The single quote. -/
def singleQuote : Char := Char.ofNat 39

/-- The double quote. -/
def doubleQuote : Char := Char.ofNat 34

/-- The quote that delimits a text. -/
def quoteFor (t : Text) : Char :=
  if t.points.contains singleQuote && !t.points.contains doubleQuote then doubleQuote
  else singleQuote

/-- An unprintable code point by its number. -/
def escapeCode (code : Nat) : String :=
  if code < 256 then "\\x" ++ Numeral.hexadecimalOfWidth 2 code
  else if code < 65536 then "\\u" ++ Numeral.hexadecimalOfWidth 4 code
  else "\\U" ++ Numeral.hexadecimalOfWidth 8 code

/-- How one code point appears between the given quotes. -/
def quotedPoint (quote : Char) : CodePoint → List Char
  | .char c =>
    if c = quote || c = '\\' then ['\\', c]
    else if c = '\n' then ['\\', 'n']
    else if c = '\r' then ['\\', 'r']
    else if c = '\t' then ['\\', 't']
    else if isPrintable (.char c) then [c]
    else (escapeCode c.toNat).toList
  | .half index => (escapeCode (CodePoint.half index).value).toList

/-- A text as it is shown in messages. -/
def quoted (t : Text) : String :=
  let quote := quoteFor t
  String.ofList (quote :: t.points.flatMap (quotedPoint quote) ++ [quote])

/-- A text on a stream of characters: halves of surrogate pairs are escaped. -/
def printed (t : Text) : String :=
  String.ofList <| t.points.flatMap fun p =>
    match p.char? with
    | some c => [c]
    | none => (escapeCode p.value).toList

end Latchwork.Text
