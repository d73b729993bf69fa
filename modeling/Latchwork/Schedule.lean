import Latchwork.Component
import Latchwork.Netlist.Basic
import Latchwork.Traversal

/-!
# Schedules

A schedule orders the combinational components of a netlist such that each comes after all that it
reads from. Registers and memories show the state of the cycle before, so reading from them asks for
no order: feedback through state is allowed. Roots are taken in ascending order of ids, and the
inputs of a component in declared order, so the schedule is a function of the netlist alone.
-/

namespace Latchwork

/-- The components of a netlist in ascending order, and the combinational ones in dependency
order. -/
structure Schedule where
  components : List Component
  combinational : List Component

namespace Schedule

/-- The registers, in ascending order. -/
def registers (s : Schedule) : List Component := s.components.filter (·.cell.isRegister)

/-- The memories, in ascending order. -/
def memories (s : Schedule) : List Component := s.components.filter (·.cell.isMemory)

/-- The components that hold state. -/
def sequential (s : Schedule) : List Component := s.registers ++ s.memories

/-- How a schedule is written. -/
def text (s : Schedule) : String :=
  let ids (cs : List Component) : String := " ".intercalate (cs.map (·.id.text))
  "(schedule (comb " ++ ids s.combinational ++ ") (reg " ++ ids s.registers ++ ") (mem " ++
    ids s.memories ++ "))"

/-- The text of a schedule, in writing. -/
def written (s : Schedule) : Except Error String :=
  Numeral.written (s.components.flatMap fun c => c.id.numerals) s.text

/-- The component with an id. -/
def find? (components : List Component) (id : Index) : Option Component :=
  components.find? fun c => c.id.value == id.value

/-- Is the id that of a combinational component? -/
def isCombinational (components : List Component) (id : Index) : Bool :=
  (find? components id).any fun c => !c.cell.isSequential

/-- The combinational components that a component reads from, in declared order. -/
def drivers (components : List Component) (id : Index) : List Index :=
  match find? components id with
  | none => []
  | some c => (c.cell.reads.map (·.driver)).filter (isCombinational components)

/-- Orders components that have all been checked. -/
def ofComponents (components : List Component) : Except Error Schedule :=
  let roots := (components.filter fun c => !c.cell.isSequential).map (·.id)
  match Traversal.order (drivers components) roots with
  | .error ids => .error (.cycle ids)
  | .ok ids => .ok ⟨components, ids.filterMap (find? components)⟩

end Schedule

/-- The schedule of a netlist. All wires are checked first, then all instances, and at last the
absence of combinational cycles. -/
def Netlist.schedule [Machine] (n : Netlist) : Except Error Schedule := do
  n.check
  let components ← n.instances.mapM Component.ofInstance
  Schedule.ofComponents components

end Latchwork
