import Latchwork.Error

/-!
# Wires

A wire is a single bit: an output port of an instance. Two wires are equal when their indices stand
for the same numbers, however these were spelled.
-/

namespace Latchwork

/-- The bit that an output port of an instance drives. -/
structure Wire where
  driver : Index
  port : Index
  deriving DecidableEq, Repr

namespace Wire

/-- Wires are compared by the numbers they stand for. -/
instance : BEq Wire :=
  ⟨fun a b => a.driver.value == b.driver.value && a.port.value == b.port.value⟩

/-- The wire of an instance at a port, given as data. The instance is looked at first. -/
def make (driver port : Value) : Except Error Wire :=
  match driver.index?, port.index? with
  | some i, some p => .ok ⟨i, p⟩
  | none, _ => .error (.instanceId driver)
  | some _, none => .error (.portIndex port)

/-- The wire that a list of arguments describes: an instance, and a port that is zero if left out.
-/
def ofArguments : List Value → Except Error Wire
  | [driver] => make driver (.int 0)
  | [driver, port] => make driver port
  | _ => .error .argumentCount

end Wire

/-- Splits a value with exactly two elements. -/
def Value.pair (v : Value) : Except Error (Value × Value) :=
  match v.elements? with
  | some [a, b] => .ok (a, b)
  | some _ => .error .notPair
  | none => .error .notIterable

namespace Wire

/-- The wire that a pair of an instance and a port describes. -/
def ofValue (v : Value) : Except Error Wire := do
  let (driver, port) ← v.pair
  make driver port

/-- How a wire is written: instance and port with a point between them. -/
def text (w : Wire) : String := w.driver.text ++ "." ++ w.port.text

/-- The numbers in the text of a wire. -/
def numerals (w : Wire) : List Nat := w.driver.numerals ++ w.port.numerals

/-- The text of a wire, in writing. -/
def written (w : Wire) : Except Error String := Numeral.written w.numerals w.text

/-- A wire as data. -/
def toValue (w : Wire) : Value := .list [w.driver.toValue, w.port.toValue]

/-- A wire is recovered from its data. -/
@[simp] theorem ofValue_toValue (w : Wire) : ofValue w.toValue = .ok w := by
  simp [ofValue, toValue, Value.pair, Value.elements?, make, bind, Except.bind]

/-- Several wires, divided by spaces. -/
def texts (ws : List Wire) : String := " ".intercalate (ws.map text)

end Wire

end Latchwork
