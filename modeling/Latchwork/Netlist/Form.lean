import Latchwork.Json.Printer
import Latchwork.Netlist.Builder

/-!
# The data form of a netlist

A netlist is exchanged as an object with a list of instances and a list of outputs. Reading checks
the form as a whole first, then adds the instances and the outputs one by one. Writing lists the
instances in ascending order with every member present.
-/

namespace Latchwork

namespace Netlist

/-- The form of a wire: an instance id and a port. -/
def wireSchema : Json.Schema := .pair .natural .natural

/-- The form of an instance. -/
def instanceSchema : Json.Schema :=
  .object
    [("id", .natural), ("kind", .string), ("params", .array (.pair .string .string)),
      ("inputs", .array wireSchema), ("outputs", .natural)]
    ["id", "kind"]

/-- The form of a netlist. -/
def schema : Json.Schema :=
  .object
    [("instances", .array instanceSchema), ("outputs", .array (.pair .identifier wireSchema))]
    ["instances", "outputs"]

/-- Values that are nested more deeply than this are not looked at. -/
def nestingLimit : Nat := (Stack.frames - Stack.usedByCheck) / Stack.framesPerLevel

/-- Checks that a value has the form of a netlist. -/
def checkForm (v : Value) : Except Error Unit :=
  if nestingLimit < v.depth then .error .nesting
  else
    match schema.violations v with
    | .error cause => .error (.notFinite cause)
    | .ok [] => .ok ()
    | .ok found => .error (.violations found)

/-- An error while a netlist is put together, as an error of its form. Data of the wrong type is
reported as such. -/
def rejection (e : Error) : Error :=
  match e.raised.family with
  | .malformedInstance => .rejected e.raised
  | .badValue => .rejected e.raised
  | _ => e.raised

/-- The elements of a list that a member of an object holds; none if it is absent. -/
def memberItems (v : Value) (key : Text) : List Value :=
  match v.member? key with
  | some (.list items) => items
  | _ => []

/-- Adds an instance in data form. -/
def insertForm (n : Netlist) (v : Value) : Except Error Netlist :=
  let data : InstanceData :=
    { kind := (v.member? "kind").getD .null
      params := .list (memberItems v "params")
      inputs := .list (memberItems v "inputs")
      outputCount := (v.member? "outputs").getD (.int 1) }
  match (Builder.ofNetlist n).insert ((v.member? "id").getD .null) data with
  | (b, .ok _) => .ok b.netlist
  | (_, .error e) => .error e

/-- Adds an output in data form. -/
def nameOutputForm (n : Netlist) (v : Value) : Except Error Netlist := do
  let (name, wire) ← v.pair
  n.nameOutput name wire

/-- Reads a netlist in data form. -/
def ofValue (v : Value) : Except Error Netlist := do
  checkForm v
  let build : Except Error Netlist := do
    let n ← (memberItems v "instances").foldlM insertForm empty
    (memberItems v "outputs").foldlM nameOutputForm n
  build.mapError rejection

/-- The data form of an instance. -/
def formOf (i : Instance) : Value :=
  .object
    [("id", i.id.toValue),
      ("kind", .text i.kind),
      ("params", .list (i.params.map fun p => .list [.text p.1, .text p.2])),
      ("inputs", .list (i.inputs.map Wire.toValue)),
      ("outputs", i.outputCount.toValue)]

/-- The data form of a netlist. -/
def toValue (n : Netlist) : Value :=
  .object
    [("instances", .list (n.instances.map formOf)),
      ("outputs", .list (n.outputs.map fun (name, w) => .list [.text name, w.toValue]))]

/-- Reads a netlist from a text. -/
def ofText (t : Text) : Except Error Netlist := do
  let v ← (Json.read t).mapError .unreadable
  ofValue v

/-- Writes a netlist as a text that ends with a line feed. -/
def toText (n : Netlist) : String := Json.print n.toValue ++ "\n"

/-- The text of a netlist in data form, in writing. -/
def dump (n : Netlist) : Except Error String := Numeral.written n.numerals n.toText

end Netlist

end Latchwork
