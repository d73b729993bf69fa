import Latchwork.Text.Basic

/-!
# Laid out text

Text made of lines and indented blocks. An empty line carries no indentation.
-/

namespace Latchwork

/-- A piece of laid out text. -/
inductive Layout where
  | line (text : Text)
  | blank
  | block (body : List Layout)
  deriving Inhabited, Repr

namespace Layout

mutual
/-- The text of a piece under an indentation; blocks add one unit to it. -/
def render (unit indent : Text) : Layout → Text
  | .line text => indent ++ text ++ "\n"
  | .blank => "\n"
  | .block body => renderAll unit (indent ++ unit) body

/-- The text of several pieces under one indentation. -/
def renderAll (unit indent : Text) : List Layout → Text
  | [] => .empty
  | piece :: rest => piece.render unit indent ++ renderAll unit indent rest
end

end Layout

end Latchwork
