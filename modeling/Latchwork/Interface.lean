import Latchwork.Memory.Altsyncram
import Latchwork.Plan.Prepare
import Latchwork.Procedure.Run

/-!
# The interface

The functions behind compilation and simulation as a caller meets them: their arguments are any
data, and are judged for their types on the way. Only what the types leave open is passed on to the
functions themselves.
-/

namespace Latchwork.Interface

/-- The elements of an argument that is gone through. -/
def elements (v : Value) : Except Error (List Value) :=
  match v.elements? with
  | some items => .ok items
  | none => .error .notIterable

/-- The names of bits. Names after the first are written out beside their weights, of which the last
is the longest. The first stands for itself, so it must be a text. -/
def bitNames (v : Value) : Except Error (List Text) := do
  match ← elements v with
  | [] => return []
  | first :: rest =>
    Numeral.writtenPower rest.length ()
    let names ← rest.mapM Value.written
    match first.text? with
    | some name => return name :: names
    | none => throw .wrongOperand

/-- The expression that packs named bits. -/
def encode (names : Value) : Except Error Text := do encodeOutputs (← bitNames names)

/-- The expressions of a dialect for a word of named bits, for the bits of a word and for bits times
their weights. -/
def words (d : Dialect) (bits : Value) : Except Error (Text × List Text × List Text) := do
  let names ← bitNames bits
  let exprs := names.map fun name => Expr.name (.given name)
  let taken := exprs.mapIdx fun k _ => Expr.bit (.name (.given "q")) k
  let scaled := exprs.mapIdx fun k e => Expr.scaled d (power 2 k) e
  return ((Expr.word d exprs).text d, taken.map (Expr.text d), scaled.map (Expr.text d))

/-- The bits of a number under names, which are data of any type that can be compared. -/
def decode (value names : Value) : Except Error (List (Value × Nat)) := do
  let names ← elements names
  match value with
  | .int _ | .bool _ =>
    if names.all Netlist.isKey then
      return @unpackOutputs Value ⟨Value.equals⟩ (value.integer?.getD 0) names
    else throw .unhashableId
  | _ => if names.isEmpty then return [] else throw .wrongOperand

/-- A bus of named bits. -/
def bus (names : Value) : Except Error Text := do
  let names ← elements names
  match names.mapM Value.text? with
  | some texts => return busText texts
  | none => throw .wrongOperand

mutual
/-- A line, an empty line or a block. -/
def layout : Value → Layout
  | .null => .blank
  | .list items => .block (layouts items)
  | v => .line v.plain

/-- Several pieces of laid out text. -/
def layouts : List Value → List Layout
  | [] => []
  | v :: rest => layout v :: layouts rest
end

/-- Laid out text under a unit of indentation, which only blocks ask for. -/
def render (unit : Value) (steps : List Value) : Except Error Text := do
  let isBlock (v : Value) : Bool := match v with | .list _ => true | _ => false
  let pieces ← Numeral.written (Value.list steps).numerals (layouts steps)
  match unit with
  | .text unit => return Layout.renderAll unit .empty pieces
  | _ =>
    if steps.any isBlock then throw .wrongOperand
    else return Layout.renderAll .empty .empty pieces

/-- Checks a name of a circuit, or of the input that an instance stands for. -/
def checkName (d : Dialect) (name : Value) (id : Option Value) : Except Error Unit :=
  match name with
  | .text name => d.checkName name id
  | _ => .error .wrongOperand

/-- The variable that asks for the source of a procedure that is compiled to be run. -/
def dumpVariable : String := "NETCOMP_pysim_dump"

/-- Compiles a netlist to a procedure that can be run, and to its source if the environment asks for
it. -/
def compile [Machine] (n : Netlist) (name done : Value) (env : Environment) :
    Except Error (Procedure × Option Text) := do
  let p ← n.executable name done
  let isAsked := (env.get? dumpVariable).any fun value => !value.isEmpty
  return (p, if isAsked then some (p.source .python) else none)

/-- What a procedure returns, as data. -/
def resultOf : Content → Except Error Value
  | .number z => .ok (.int z)
  | .flag b => .ok (.bool b)
  | .foreign v => .ok v
  | _ => .error .wrongOperand

/-- Runs a procedure on the elements of an argument list. -/
def call [Machine] (p : Procedure) (arguments : Value) : Except Error Value :=
  match arguments.elements? with
  | some items => (p.call items).bind resultOf
  | none => .error .callArguments

/-- The arguments by name that data gives; data that counts as false gives none. -/
def namedArguments (v : Value) : Except Error (List (Text × Value)) :=
  match v with
  | .object members => .ok members
  | _ => if v.isTrue then .error .callArguments else .ok []

/-- Runs a netlist on arguments by name. The netlist is compiled before they are looked at. -/
def simulate [Machine] (n : Netlist) (arguments done : Value) :
    Except Error (List (Text × Nat)) := do
  let _ ← n.executable defaultName done
  n.simulate (← namedArguments arguments) done

end Latchwork.Interface
