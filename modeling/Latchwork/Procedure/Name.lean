import Latchwork.Text.Identifier
import Latchwork.Wire

/-!
# Names of a procedure

The names that occur in an emitted procedure: those of its parameters, which come from the netlist,
and those of its cells, which are made from instance ids and ports.
-/

namespace Latchwork

/-- A name in a procedure. -/
inductive Name where
  | given (text : Text)
  | wire (w : Wire)
  | next (id : Index)
  | storage (id : Index)
  | address (id : Index) (port : Nat)
  | data (id : Index) (port : Nat)
  | read (id : Index) (port : Nat)
  deriving DecidableEq, Repr

/-- The name of a wire: its instance, and its port unless that is the first one. -/
def Wire.name (w : Wire) : String :=
  if w.port.value = 0 then "w" ++ w.driver.text
  else "w" ++ w.driver.text ++ "_" ++ w.port.text

/-- The name of a wire, in writing. -/
def Wire.writtenName (w : Wire) : Except Error String := Numeral.written w.numerals w.name

namespace Name

/-- How a name is spelled. The next value of a register is named after its wire; the words of a
memory port are named after its storage. -/
def text : Name → Text
  | .given s => s
  | .wire w => w.name
  | .next id => "w" ++ id.text ++ "_"
  | .storage id => "m" ++ id.text
  | .address id port => "m" ++ id.text ++ "_a" ++ Numeral.decimal port
  | .data id port => "m" ++ id.text ++ "_d" ++ Numeral.decimal port
  | .read id port => "m" ++ id.text ++ "_q" ++ Numeral.decimal port

end Name

/-- Is the text of the form that generated names have: a letter for wires or memories, a decimal
number, and possibly a low line with anything after it? -/
def isGeneratedName (t : Text) : Bool :=
  match t.points with
  | .char 'w' :: rest => isNumbered rest
  | .char 'm' :: rest => isNumbered rest
  | _ => false
where
  /-- A decimal number, alone or before a low line and characters of identifiers. -/
  isNumbered (rest : List CodePoint) : Bool :=
    let isDigit (p : CodePoint) : Bool := p.satisfies Char.isDigit
    !(rest.takeWhile isDigit).isEmpty &&
      match rest.dropWhile isDigit with
      | [] => true
      | .char '_' :: tail => tail.all fun p => p.satisfies Text.isIdentifierPart
      | _ => false

end Latchwork
