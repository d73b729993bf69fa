import Latchwork.Text.CodeRanges

/-!
# Blanks

The characters that are dropped at the two ends of a text. Two classes differ: around a whole text
the four information separators count as blanks, around a numeral they do not.
-/

namespace Latchwork.Text

/-- Blanks above the control characters. -/
def wideBlankRanges : CodeRanges :=
  [(133, 133), (160, 160), (5760, 5760), (8192, 8202), (8232, 8233), (8239, 8239), (8287, 8287),
    (12288, 12288)]

/-- Blanks around a text: tab to carriage return, the information separators, space, and the wide
blanks. -/
def isBlank (c : Char) : Bool :=
  CodeRanges.contains ((9, 13) :: (28, 32) :: wideBlankRanges) (.char c)

/-- Blanks around a numeral: as around a text, without the information separators. -/
def isNumeralBlank (c : Char) : Bool :=
  CodeRanges.contains ((9, 13) :: (32, 32) :: wideBlankRanges) (.char c)

/-- Drops the characters of a class at the two ends. -/
def trimEnds (drops : Char → Bool) (s : List Char) : List Char :=
  ((s.dropWhile drops).reverse.dropWhile drops).reverse

/-- Drops the blanks at the two ends of a text. -/
def strip (s : List Char) : List Char := trimEnds isBlank s

end Latchwork.Text
