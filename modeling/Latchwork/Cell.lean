import Latchwork.Memory.Shape

/-!
# Cells

A cell is an instance that has been checked against its primitive: what the primitive needs of the
wires and parameters, and nothing else. The clock input of a register is checked for its presence
and then dropped, since the simulation advances all registers at once.
-/

namespace Latchwork

/-- Gates of two inputs. -/
inductive Gate where
  | and
  | or
  | xor
  | equal
  deriving DecidableEq, Repr

/-- A checked instance. -/
inductive Cell where
  | constant (value : Bool)
  | inverter (input : Wire)
  | gate (op : Gate) (left right : Wire)
  | multiplexer (select whenSet whenClear : Wire)
  | input (name : Text)
  | register (init : Bool) (enable : Option Wire) (data : Wire)
  | memory (shape : MemoryShape) (ports : List MemoryPort)
  deriving DecidableEq

namespace Cell

/-- Registers and memories hold state; their outputs show the cycle before. -/
def isSequential : Cell → Bool
  | .register .. => true
  | .memory .. => true
  | _ => false

/-- Is the cell a register? -/
def isRegister : Cell → Bool
  | .register .. => true
  | _ => false

/-- Is the cell a memory? -/
def isMemory : Cell → Bool
  | .memory .. => true
  | _ => false

/-- The wires that a combinational cell reads, in declared order. -/
def reads : Cell → List Wire
  | .inverter a => [a]
  | .gate _ a b => [a, b]
  | .multiplexer select whenSet whenClear => [whenSet, whenClear, select]
  | _ => []

/-- The initial value of a register instance. -/
def registerInit (i : Instance) : Except Error Bool := do
  let init ← i.intParam "init"
  if init = 0 then return false
  else if init = 1 then return true
  else throw (.registerInit i.id init)

/-- A primitive applied to as many wires as it takes, with the parameters that it needs. -/
def build (i : Instance) : Primitive → List Wire → Except Error Cell
  | .low, [] => .ok (.constant false)
  | .high, [] => .ok (.constant true)
  | .inv, [a] => .ok (.inverter a)
  | .and2, [a, b] => .ok (.gate .and a b)
  | .or2, [a, b] => .ok (.gate .or a b)
  | .xor2, [a, b] => .ok (.gate .xor a b)
  | .xorcy, [a, b] => .ok (.gate .xor a b)
  | .eq2, [a, b] => .ok (.gate .equal a b)
  | .muxcy, [carry, data, select] => .ok (.multiplexer select carry data)
  | .name, [] => (i.param "name").map .input
  | .delay, [_, data] => (registerInit i).map fun init => .register init none data
  | .delayEn, [_, enable, data] =>
    (registerInit i).map fun init => .register init (some enable) data
  | kind, wires => .error (.inputsNeeded i.id kind (kind.arity?.getD 0) wires.length)

/-- Checks that an instance has the number of outputs that its primitive drives. -/
def checkOutputs (i : Instance) (kind : Primitive) (needed : Nat) : Except Error Unit :=
  if i.outputCount.value = needed then .ok ()
  else .error (.outputsNeeded i.id kind needed i.outputCount)

/-- Checks an instance against its primitive: the kind, the parameters and inputs of a memory or the
number of inputs of any other primitive, the number of outputs, and at last the parameters of a
register or an external input. -/
def ofInstance [Machine] (i : Instance) : Except Error Cell := do
  let kind ← i.primitive
  if kind.isMemory then
    let shape ← MemoryShape.ofInstance i
    let ports ← shape.ports i
    checkOutputs i kind shape.outputCount
    return .memory shape ports
  else
    let needed := kind.arity?.getD 0
    if i.inputs.length ≠ needed then
      throw (.inputsNeeded i.id kind needed i.inputs.length)
    checkOutputs i kind 1
    build i kind i.inputs

end Cell

end Latchwork
