import Latchwork.Procedure.Basic
import Latchwork.Text.Layout

/-!
# Procedures in Python

A procedure as a Python function whose parameters are the inputs.
-/

namespace Latchwork

namespace Dialect.Python

/-- A word in hexadecimal notation. -/
def wordText (value : Nat) : String := "0x" ++ Numeral.hexadecimal value

/-- An expression for the list of words that a storage starts with. -/
inductive TableExpr where
  | zeros (count : Nat)
  | words (values : List Nat)
  | padded (values : List Nat) (count : Nat)
  deriving DecidableEq, Repr

namespace TableExpr

/-- The expression for the storage of a memory: the given values, then zeros as far as needed. -/
def ofShape (shape : MemoryShape) : TableExpr :=
  if shape.init.isEmpty then .zeros shape.padding
  else if shape.padding = 0 then .words shape.init
  else .padded shape.init shape.padding

/-- Values between brackets. -/
def valuesText (values : List Nat) : String := "[" ++ ", ".intercalate (values.map wordText) ++ "]"

/-- A list of zeros. -/
def zerosText (count : Nat) : String := "[0] * " ++ Numeral.decimal count

/-- How an expression is written. -/
def text : TableExpr → String
  | .zeros count => zerosText count
  | .words values => valuesText values
  | .padded values count => valuesText values ++ " + " ++ zerosText count

end TableExpr

/-- A declaration. -/
def declaration : Declaration → List Layout
  | .cells names value =>
    names.map fun n => .line (n.text ++ " = " ++ Numeral.decimal value.toNat)
  | .storage name shape => [.line (name.text ++ " = " ++ (TableExpr.ofShape shape).text)]

/-- A statement. -/
def statement : Statement → List Layout
  | .bind dest value none => [.line (dest.text ++ " = " ++ value.text .python)]
  | .bind dest value (some note) =>
    [.line (dest.text ++ " = " ++ value.text .python ++ " # " ++ note.text)]
  | .bindWord dest value => [.line (dest.text ++ " = " ++ value.text .python)]
  | .assign dest value => [.line (dest.text ++ " = " ++ value.text .python)]
  | .store enable storage address data =>
    [.line ("if " ++ enable.text ++ ":"),
      .block [.line (storage.text ++ "[" ++ address.text ++ "] = " ++ data.text)]]

/-- The body of the loop. -/
def loopBody (p : Procedure) : List Layout :=
  [.line "# Calculate the current value of wires, in dependency order"] ++
    p.settle.flatMap statement ++
    [.line ("if " ++ p.exitFlag.text ++ ":"),
      .block [.line ("return " ++ p.result.text .python)],
      .line "# Calculate the next values of registers"] ++
    p.next.flatMap statement ++ [.line "# Update the registers"] ++ p.commit.flatMap statement

/-- The whole text of a procedure. -/
def layout (p : Procedure) : List Layout :=
  [.line ("def " ++ p.name ++ "(" ++ Text.intercalate ", " p.inputs ++ "):"),
    .block
      ([.line ("# Inputs : " ++ Text.intercalate ", " p.inputs),
          .line ("# Outputs: " ++ Text.intercalate ", " p.outputs)] ++
        p.declarations.flatMap declaration ++ [.line "while True:", .block (loopBody p)])]

end Dialect.Python

end Latchwork
