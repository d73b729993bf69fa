import Latchwork.Json.Token
import Latchwork.Stack

/-!
# Reading a JSON text

The tokens drive a machine with one state per place of the grammar; values that are still open are
its context. Every state knows the one fault that a token out of place, or the end of the text, is
reported as, at the offset where it is found.
-/

namespace Latchwork.Json

/-- The lists and objects around a value that is being read. Elements of a list are kept last
first. -/
inductive Context where
  | top
  | inList (items : List Value) (outer : Context)
  | inObject (members : List (Text × Value)) (key : Text) (outer : Context)

/-- The place of the grammar that has been reached. -/
inductive State where
  /-- A value must come. -/
  | value (context : Context)
  /-- A list has been opened. -/
  | listStart (outer : Context)
  /-- An element of a list is complete. -/
  | listNext (items : List Value) (outer : Context)
  /-- An object has been opened. -/
  | objectStart (outer : Context)
  /-- A key must come. -/
  | objectKey (members : List (Text × Value)) (outer : Context)
  /-- A key is complete. -/
  | objectColon (members : List (Text × Value)) (key : Text) (outer : Context)
  /-- A member of an object is complete. -/
  | objectNext (members : List (Text × Value)) (outer : Context)
  /-- The whole value is complete. -/
  | complete (v : Value)

/-- Sets a member: a key that is present keeps its place and gets the new value. -/
def setMember (key : Text) (v : Value) : List (Text × Value) → List (Text × Value)
  | [] => [(key, v)]
  | m :: rest => if m.1 = key then (key, v) :: rest else m :: setMember key v rest

/-- A complete value goes to its context. -/
def Context.deliver (v : Value) : Context → State
  | .top => .complete v
  | .inList items outer => .listNext (v :: items) outer
  | .inObject members key outer => .objectNext (setMember key v members) outer

/-- The fault of a token out of place. -/
def State.fault : State → SyntaxFault
  | .value _ => .expectingValue
  | .listStart _ => .expectingValue
  | .listNext .. => .expectingComma
  | .objectStart _ => .expectingKey
  | .objectKey .. => .expectingKey
  | .objectColon .. => .expectingColon
  | .objectNext .. => .expectingComma
  | .complete _ => .extraData

/-- The number of lists and objects around a value. -/
def Context.depth : Context → Nat
  | .top => 0
  | .inList _ outer => outer.depth + 1
  | .inObject _ _ outer => outer.depth + 1

/-- Lists and objects that are nested more deeply than this are not read. -/
def nestingLimit : Nat := Stack.frames - Stack.usedByReader

/-- A list or an object is opened in a context, unless it is nested too deeply. -/
def Context.enter (context : Context) (state : State) : Except Fault State :=
  if context.depth < nestingLimit then .ok state else .error .tooDeep

/-- A token where a value must come. -/
def Context.step (context : Context) (t : Located) : Except Fault State :=
  match t.token with
  | .openObject => context.enter (.objectStart context)
  | .openList => context.enter (.listStart context)
  | .text s => .ok (context.deliver (.text s))
  | .scalar v => .ok (context.deliver v)
  | .faulty fault => .error fault
  | _ => .error (.malformed .expectingValue t.offset)

/-- A token where a key must come. -/
def stepKey (members : List (Text × Value)) (outer : Context) (t : Located) :
    Except Fault State :=
  match t.token with
  | .text s => .ok (.objectColon members s outer)
  | .faulty (.malformed fault offset) => .error (.malformed fault offset)
  | _ => .error (.malformed .expectingKey t.offset)

/-- One step of the machine. -/
def State.step (state : State) (t : Located) : Except Fault State :=
  match state, t.token with
  | .value context, _ => context.step t
  | .listStart outer, .closeList => .ok (outer.deliver (.list []))
  | .listStart outer, _ => (Context.inList [] outer).step t
  | .listNext items outer, .closeList => .ok (outer.deliver (.list items.reverse))
  | .listNext items outer, .comma => .ok (.value (.inList items outer))
  | .objectStart outer, .closeObject => .ok (outer.deliver (.object []))
  | .objectStart outer, _ => stepKey [] outer t
  | .objectKey members outer, _ => stepKey members outer t
  | .objectColon members key outer, .colon => .ok (.value (.inObject members key outer))
  | .objectNext members outer, .closeObject => .ok (outer.deliver (.object members))
  | .objectNext members outer, .comma => .ok (.objectKey members outer)
  | state, _ => .error (.malformed state.fault t.offset)

/-- Runs the machine to the end of the text. -/
def State.run (stop : Nat) : State → List Located → Except Fault Value
  | .complete v, [] => .ok v
  | state, [] => .error (.malformed state.fault stop)
  | state, t :: rest => (state.step t).bind fun next => next.run stop rest

/-- A place in a text: the offset counts code points from zero, lines and columns from one. -/
structure Place where
  line : Nat
  column : Nat
  offset : Nat
  deriving DecidableEq, Repr

/-- The place of an offset. -/
def Place.ofOffset (t : Text) (offset : Nat) : Place :=
  let before := t.points.take offset
  { line := before.count (.char '\n') + 1
    column := (before.reverse.takeWhile (· != .char '\n')).length + 1
    offset := offset }

/-- Why a text cannot be read. -/
inductive ReadError where
  | malformed (fault : SyntaxFault) (place : Place)
  | tooManyDigits (count : Nat)
  | tooDeep
  deriving DecidableEq, Repr

/-- The wording of a read error. -/
def ReadError.message : ReadError → String
  | .malformed fault place =>
    fault.message ++ ": line " ++ Numeral.decimal place.line ++ " column " ++
      Numeral.decimal place.column ++ " (char " ++ Numeral.decimal place.offset ++ ")"
  | .tooManyDigits count =>
    "Exceeds the limit (" ++ Numeral.decimal Numeral.digitLimit ++
      " digits) for integer string conversion: value has " ++ Numeral.decimal count ++
      " digits; use sys.set_int_max_str_digits() to increase the limit"
  | .tooDeep => "lists and objects are nested too deeply"

/-- A fault with its place in the text. -/
def Fault.locate (t : Text) : Fault → ReadError
  | .malformed fault offset => .malformed fault (.ofOffset t offset)
  | .tooManyDigits count => .tooManyDigits count
  | .tooDeep => .tooDeep

/-- Reads one value from code points. A byte order mark is not skipped. -/
def readPoints (points : List CodePoint) : Except Fault Value :=
  if points.head? == some (.ofValue 0xFEFF) then .error (.malformed .byteOrderMark 0)
  else State.run points.length (.value .top) (tokens 0 points)

/-- Reads one value from a text. -/
def read (t : Text) : Except ReadError Value := (readPoints t.points).mapError (Fault.locate t)

end Latchwork.Json
