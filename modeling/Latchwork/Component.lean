import Latchwork.Cell

/-!
# Components

A component is an instance that has passed its check: its id, its primitive, and the cell that it
is.
-/

namespace Latchwork

/-- A checked instance of a netlist. -/
structure Component where
  id : Index
  kind : Primitive
  cell : Cell
  deriving DecidableEq

namespace Component

/-- Checks an instance. -/
def ofInstance [Machine] (i : Instance) : Except Error Component := do
  let kind ← i.primitive
  let cell ← Cell.ofInstance i
  return ⟨i.id, kind, cell⟩

/-- The wire of an output port. -/
def wire (c : Component) (port : Nat) : Wire := ⟨c.id, .number port⟩

end Component

end Latchwork
