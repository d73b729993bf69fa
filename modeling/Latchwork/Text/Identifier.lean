import Latchwork.Text.Basic

/-!
# Identifiers

An identifier starts with a letter or a low line and goes on with letters, digits and low lines.
Letters and digits are those of the basic set.
-/

namespace Latchwork.Text

/-- May the character start an identifier? -/
def isIdentifierStart (c : Char) : Bool := c.isAlpha || c = '_'

/-- May the character stand inside an identifier? -/
def isIdentifierPart (c : Char) : Bool := c.isAlphanum || c = '_'

/-- Do the code points form an identifier? -/
def isIdentifierPoints : List CodePoint → Bool
  | [] => false
  | p :: rest =>
    p.satisfies isIdentifierStart && rest.all fun q => q.satisfies isIdentifierPart

/-- Is the text an identifier? -/
def isIdentifier (t : Text) : Bool := isIdentifierPoints t.points

end Latchwork.Text
