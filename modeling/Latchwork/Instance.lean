import Latchwork.Wire

/-!
# Instances

An instance is one occurrence of a primitive, with named parameters, input wires and a number of
outputs. Its kind is any text here; it is compared with the primitives when the instance is checked.
-/

namespace Latchwork

/-- The primitive that a value names, as the kind of an instance if one is given. -/
def Primitive.ofValue (kind : Value) (id : Option Value) : Except Error Primitive :=
  match kind.text?.bind Primitive.ofText? with
  | some p => .ok p
  | none => .error (.unknownPrimitive kind id)

/-- One occurrence of a primitive. -/
structure Instance where
  id : Index
  kind : Text
  params : List (Text × Text)
  inputs : List Wire
  outputCount : Index
  deriving DecidableEq, Repr

/-- The unchecked data of an instance. -/
structure InstanceData where
  kind : Value
  params : Value := .list []
  inputs : Value := .list []
  outputCount : Value := .int 1

namespace Instance

/-- The parameters that a value describes: the members of an object, or a sequence of pairs. Keys
and values become texts. -/
def paramsOf (v : Value) : Except Error (List (Text × Text)) :=
  match v with
  | .object members => members.mapM fun m => m.2.written.map fun value => (m.1, value)
  | _ =>
    match v.elements? with
    | none => .error .notIterable
    | some items => items.mapM fun item => do
        let (key, value) ← item.pair
        return (← key.written, ← value.written)

/-- The wires that a value describes. -/
def wiresOf (v : Value) : Except Error (List Wire) :=
  match v.elements? with
  | none => .error .notIterable
  | some items => items.mapM Wire.ofValue

/-- Makes an instance from data. The id is looked at first, then the kind, the output count, the
parameters and the inputs. -/
def make (id : Value) (data : InstanceData) : Except Error Instance := do
  let some index := id.index? | throw (.instanceId id)
  let some kind := data.kind.text? | throw (.instanceKind data.kind)
  let some outputCount := data.outputCount.index? | throw (.outputCount data.outputCount)
  let params ← paramsOf data.params
  let inputs ← wiresOf data.inputs
  return ⟨index, kind, params, inputs, outputCount⟩

/-- The arguments that an instance is made from, in order; all but the first two may be left out. -/
inductive Argument where
  | id
  | kind
  | params
  | inputs
  | outputCount
  deriving DecidableEq, Repr

/-- Every argument, in order. -/
def Argument.all : List Argument := [.id, .kind, .params, .inputs, .outputCount]

/-- Makes an instance from arguments that are given by position and arguments that are given by
name. None may be given twice. -/
def ofArguments (positional : List Value) (named : List (Argument × Value)) :
    Except Error Instance :=
  let given := Argument.all.zip positional ++ named
  let value? (a : Argument) : Option Value := (given.find? fun g => g.1 == a).map (·.2)
  if Argument.all.length < positional.length ∨ ¬(given.map Prod.fst).Nodup then
    .error .argumentCount
  else
    match value? .id, value? .kind with
    | some id, some kind =>
      make id
        { kind := kind
          params := (value? .params).getD (.list [])
          inputs := (value? .inputs).getD (.list [])
          outputCount := (value? .outputCount).getD (.int 1) }
    | _, _ => .error .argumentCount

/-- The first value of a parameter. -/
def param? (i : Instance) (key : Text) : Option Text :=
  (i.params.find? fun p => p.1 == key).map (·.2)

/-- Is there a parameter with this key? -/
def hasParam (i : Instance) (key : Text) : Bool := (i.param? key).isSome

/-- The first value of a parameter that must be there. -/
def param (i : Instance) (key : Text) : Except Error Text :=
  match i.param? key with
  | some value => .ok value
  | none => .error (.missingParameter i.id i.kind (.text key))

/-- The integer that a text spells, with blanks around it. -/
def integer? (t : Text) : Option Int :=
  t.string?.bind fun s => Numeral.integer? (Text.strip s.toList)

/-- The integers that characters list between brackets, divided by commas. -/
def integersOf? (cs : List Char) : Option (List Int) :=
  match Text.strip cs with
  | '[' :: rest =>
    if rest.getLast? == some ']' then
      let body := Text.strip rest.dropLast
      if body.isEmpty then some [] else (body.splitOn ',').mapM Numeral.integer?
    else none
  | _ => none

/-- The integers that a text lists. -/
def integerList? (t : Text) : Option (List Int) :=
  t.string?.bind fun s => integersOf? s.toList

/-- A parameter as an integer. -/
def intParam (i : Instance) (key : Text) : Except Error Int := do
  let value ← i.param key
  match integer? value with
  | some z => return z
  | none => throw (.notInteger i.id i.kind key value)

/-- A parameter as a list of integers. -/
def intsParam (i : Instance) (key : Text) : Except Error (List Int) := do
  let value ← i.param key
  match integerList? value with
  | some zs => return zs
  | none => throw (.notIntegerList i.id i.kind key value)

/-- The wire of an output port. -/
def wire (i : Instance) (port : Nat) : Wire := ⟨i.id, .number port⟩

/-- The wires of all output ports, in order. -/
def wires (i : Instance) : List Wire := (List.range i.outputCount.value).map i.wire

/-- How an instance is written: kind, id, output count, inputs and parameters. -/
def text (i : Instance) : Text :=
  let param (p : Text × Text) : Text := " (param " ++ p.1 ++ " " ++ Text.quoted p.2 ++ ")"
  "(" ++ i.kind ++ " " ++ i.id.text ++ " " ++ i.outputCount.text ++ " (" ++
    Wire.texts i.inputs ++ ")" ++ Text.join (i.params.map param) ++ ")"

/-- The numbers in the text of an instance. -/
def numerals (i : Instance) : List Nat :=
  i.id.numerals ++ i.outputCount.numerals ++ i.inputs.flatMap Wire.numerals

/-- The text of an instance, in writing. -/
def written (i : Instance) : Except Error Text := Numeral.written i.numerals i.text

/-- The primitive of an instance. -/
def primitive (i : Instance) : Except Error Primitive :=
  Primitive.ofValue (.text i.kind) (some i.id.toValue)

end Instance

end Latchwork
