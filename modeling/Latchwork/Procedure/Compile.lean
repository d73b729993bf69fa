import Latchwork.Procedure.Basic
import Latchwork.Schedule

/-!
# Compilation

The procedure that simulates a netlist. Compilation fails with the first of these: a fault of the
schedule, a missing exit flag, a bad circuit name, a bad input name in ascending order of instances,
in the C dialect more outputs than its result type holds, and a number that is too long to write.
-/

namespace Latchwork

namespace Component

/-- The statement that settles a combinational component. -/
def settle (c : Component) : List Statement :=
  let dest := Name.wire (c.wire 0)
  match c.cell with
  | .constant value => [.bind dest (.literal value.toNat) (some .constant)]
  | .inverter a => [.bind dest (.binary .xor (.literal 1) (.wire a)) (some .unary)]
  | .gate .and a b => [.bind dest (.binary .and (.wire a) (.wire b)) none]
  | .gate .or a b => [.bind dest (.binary .or (.wire a) (.wire b)) none]
  | .gate .xor a b => [.bind dest (.binary .xor (.wire a) (.wire b)) none]
  | .gate .equal a b => [.bind dest (.binary .equal (.wire a) (.wire b)) none]
  | .multiplexer select whenSet whenClear =>
    [.bind dest (.choose (.wire select) (.wire whenSet) (.wire whenClear)) (some .muxcy)]
  | .input name => [.bind dest (.binary .and (.literal 1) (.name (.given name))) (some .name)]
  | .register .. => []
  | .memory .. => []

/-- The declarations of a component that holds state. The outputs of a memory start at zero. -/
def declare (c : Component) : List Declaration :=
  match c.cell with
  | .register init _ _ => [.cells [.wire (c.wire 0)] init]
  | .memory shape _ =>
    [.cells ((List.range shape.outputCount).map fun k => .wire (c.wire k)) false,
      .storage (.storage c.id) shape]
  | _ => []

/-- The words of address and data of a memory port. -/
def portWords (d : Dialect) (id : Index) (k : Nat) (port : MemoryPort) : List Statement :=
  [.bindWord (.address id k) (.word d (port.address.map .wire)),
    .bindWord (.data id k) (.word d (port.data.map .wire))]

/-- The write of a memory port. -/
def portWrite (id : Index) (k : Nat) (port : MemoryPort) : Statement :=
  .store (.wire port.enable) (.storage id) (.address id k) (.data id k)

/-- The read of a memory port. -/
def portRead (id : Index) (k : Nat) : Statement :=
  .bindWord (.read id k) (.element (.storage id) (.address id k))

/-- The statements that compute the next state of a component. In a memory all writes come before
any read, so a port reads what is written in the same cycle. -/
def next (d : Dialect) (c : Component) : List Statement :=
  match c.cell with
  | .register _ none data => [.bind (.next c.id) (.wire data) none]
  | .register _ (some enable) data =>
    [.bind (.next c.id) (.choose (.wire enable) (.wire data) (.wire (c.wire 0))) none]
  | .memory _ ports =>
    (ports.mapIdx (portWords d c.id)).flatten ++ ports.mapIdx (portWrite c.id) ++
      ports.mapIdx fun k _ => portRead c.id k
  | _ => []

/-- The assignments of a word that was read to the output bits of its port. -/
def portCommit (id : Index) (k : Nat) (port : MemoryPort) : List Statement :=
  port.output.mapIdx fun bit w => .assign (.wire w) (.bit (.name (.read id k)) bit)

/-- The statements that commit the next state of a component. -/
def commit (c : Component) : List Statement :=
  match c.cell with
  | .register .. => [.assign (.wire (c.wire 0)) (.name (.next c.id))]
  | .memory _ ports => (ports.mapIdx (portCommit c.id)).flatten
  | _ => []

/-- Checks that the number of locations of a memory can be written. -/
def checkDepth (c : Component) : Except Error Unit :=
  match c.cell with
  | .memory shape _ => shape.checkDepth
  | _ => .ok ()

/-- The name of an external input, if the component is one. -/
def inputName? (c : Component) : Option Text :=
  match c.cell with
  | .input name => some name
  | _ => none

end Component

/-- The most outputs that the C dialect packs into a number. -/
def outputLimit : Nat := 64

namespace Schedule

/-- The names of the external inputs, in order of first appearance. -/
def inputs (s : Schedule) : List Text := (s.components.filterMap (·.inputName?)).eraseDups

/-- Checks the names of the external inputs, in ascending order of instances. -/
def checkInputNames (s : Schedule) (d : Dialect) : Except Error Unit :=
  s.components.forM fun c =>
    match c.inputName? with
    | some name => d.checkName name (some c.id.toValue)
    | none => .ok ()

/-- The procedure of a scheduled netlist with named outputs and an exit flag. -/
def procedure (s : Schedule) (d : Dialect) (name : Text) (outputs : List (Text × Wire))
    (exitFlag : Wire) : Procedure :=
  { name := name
    inputs := s.inputs
    outputs := outputs.map (·.1)
    declarations := s.sequential.flatMap Component.declare
    settle := s.combinational.flatMap Component.settle
    exitFlag := .wire exitFlag
    result := .packed d (outputs.map fun o => .wire o.2)
    next := s.sequential.flatMap (Component.next d)
    commit := s.sequential.flatMap Component.commit }

end Schedule

namespace Netlist

/-- Checks that the numbers in a procedure can be written: the weights of the outputs, the numbers
of the netlist itself, and the numbers of locations. -/
def checkNumerals (n : Netlist) (s : Schedule) : Except Error Unit := do
  Numeral.writtenPower (n.outputs.length - 1) ()
  Numeral.written n.numerals ()
  s.components.forM Component.checkDepth

/-- Compiles a netlist to a procedure of the given name, which runs until the named output is set.
Both are given as data. -/
def compile [Machine] (n : Netlist) (d : Dialect) (name done : Value) :
    Except Error Procedure := do
  let s ← n.schedule
  let exitFlag ← n.output done
  let name ← d.circuitName name
  s.checkInputNames d
  if d = .c ∧ outputLimit < n.outputs.length then
    throw (.tooManyOutputs n.outputs.length)
  n.checkNumerals s
  return s.procedure d name n.outputs exitFlag

end Netlist

end Latchwork
