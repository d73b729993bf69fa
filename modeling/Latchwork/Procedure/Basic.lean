import Latchwork.Memory.Shape
import Latchwork.Procedure.Expr

/-!
# Procedures

A procedure simulates a netlist, one clock cycle in each turn of its loop. A turn settles the
combinational wires in order, returns the packed outputs if the exit flag is set, computes the next
values of all registers and memories into cells of their own, and then commits them at once.
-/

namespace Latchwork

/-- What a bound bit is said to be. -/
inductive Note where
  | constant
  | unary
  | muxcy
  | name
  deriving DecidableEq

/-- The wording of a note. -/
def Note.text : Note → String
  | .constant => "constant"
  | .unary => "unary"
  | .muxcy => "muxcy"
  | .name => "name"

/-- A statement of the loop. -/
inductive Statement where
  | bind (dest : Name) (value : Expr) (note : Option Note)
  | bindWord (dest : Name) (value : Expr)
  | assign (dest : Name) (value : Expr)
  | store (enable storage address data : Name)
  deriving DecidableEq

/-- What is declared before the loop: cells of one bit each with their common initial value, or the
storage of a memory. -/
inductive Declaration where
  | cells (names : List Name) (value : Bool)
  | storage (name : Name) (shape : MemoryShape)
  deriving DecidableEq

/-- A simulation procedure. -/
structure Procedure where
  name : Text
  inputs : List Text
  outputs : List Text
  declarations : List Declaration
  settle : List Statement
  exitFlag : Name
  result : Expr
  next : List Statement
  commit : List Statement
  deriving DecidableEq

end Latchwork
