import Latchwork.Procedure.Basic
import Latchwork.Text.Layout

/-!
# Procedures in C

A procedure as a C function: one parameter of type bit for each input, and a result that is wide
enough for all outputs.
-/

namespace Latchwork

namespace Dialect.C

/-- The result type: up to 32 outputs fit the smaller one. -/
def resultType (p : Procedure) : String :=
  if p.outputs.length ≤ 32 then "unsigned" else "unsigned long long"

/-- The parameter list; an empty one is said to be void. -/
def parameters (p : Procedure) : Text :=
  if p.inputs.isEmpty then "void"
  else .intercalate ", " (p.inputs.map fun name => "bit " ++ name)

/-- A word in hexadecimal notation. -/
def wordText (value : Nat) : String := "0x" ++ Numeral.hexadecimal value

/-- An array that is declared with a length and with values for its first elements. Elements without
a value are zero. -/
structure ArrayDeclaration where
  length : Nat
  values : List Nat
  deriving DecidableEq, Repr

namespace ArrayDeclaration

/-- The array for the storage of a memory. -/
def ofShape (shape : MemoryShape) : ArrayDeclaration := ⟨shape.depth, shape.init⟩

/-- The values between braces. An initialiser is never empty: a zero stands in for no values. -/
def initialiser (a : ArrayDeclaration) : String :=
  let values := if a.values.isEmpty then "0" else ", ".intercalate (a.values.map wordText)
  "\x7b" ++ values ++ "\x7d"

end ArrayDeclaration

/-- A declaration. -/
def declaration : Declaration → Layout
  | .cells names value =>
    .line ("bit " ++ Text.intercalate ", " (names.map fun n =>
      n.text ++ " = " ++ Numeral.decimal value.toNat) ++ ";")
  | .storage name shape =>
    let array := ArrayDeclaration.ofShape shape
    .line ("unsigned long long " ++ name.text ++ "[" ++ Numeral.decimal array.length ++ "] = " ++
      array.initialiser ++ ";")

/-- A statement. -/
def statement : Statement → Layout
  | .bind dest value none => .line ("bit " ++ dest.text ++ " = " ++ value.text .c ++ ";")
  | .bind dest value (some note) =>
    .line ("bit " ++ dest.text ++ " = " ++ value.text .c ++ "; // " ++ note.text)
  | .bindWord dest value =>
    .line ("unsigned long long " ++ dest.text ++ " = " ++ value.text .c ++ ";")
  | .assign dest value => .line (dest.text ++ " = " ++ value.text .c ++ ";")
  | .store enable storage address data =>
    .line ("if (" ++ enable.text ++ ") " ++ storage.text ++ "[" ++ address.text ++ "] = " ++
      data.text ++ ";")

/-- The body of the loop. -/
def loopBody (p : Procedure) : List Layout :=
  [.line "// Calculate the current value of wires, in dependency order"] ++
    p.settle.map statement ++
    [.line ("if (" ++ p.exitFlag.text ++ ")"),
      .block [.line ("return " ++ p.result.text .c ++ ";")],
      .line "// Calculate the next values of registers"] ++
    p.next.map statement ++ [.line "// Update the registers"] ++ p.commit.map statement

/-- The whole text of a procedure. Cells without a reader are no reason for a warning. -/
def layout (p : Procedure) : List Layout :=
  [.line "#if defined(__GNUC__)",
    .line "typedef int bit __attribute__((unused));",
    .line "#else",
    .line "typedef int bit;",
    .line "#endif",
    .line "/* C simulation function, generated by netcomp */",
    .line (resultType p ++ " " ++ p.name ++ "(" ++ parameters p ++ ") \x7b"),
    .block
      ([.line ("/* Inputs : " ++ Text.intercalate ", " p.inputs ++ " */"),
          .line ("/* Outputs: " ++ Text.intercalate ", " p.outputs ++ " */")] ++
        p.declarations.map declaration ++
        [.line "for (;;) \x7b", .block (loopBody p), .line "\x7d"]),
    .line "\x7d"]

end Dialect.C

end Latchwork
