import Latchwork.Error
import Latchwork.Procedure.Name
import Latchwork.Text.Identifier

/-!
# Dialects

The languages in which a procedure can be written, and the names that each of them leaves free.
-/

namespace Latchwork

/-- A language that procedures are written in. -/
inductive Dialect where
  | c
  | python
  deriving DecidableEq, Repr

namespace Dialect

/-- The words that cannot name a circuit or an input: the keywords of the language and the names
that every procedure uses. -/
def reservedWords : Dialect → List String
  | .c =>
    ["auto", "break", "case", "char", "const", "continue", "default", "do", "double", "else",
      "enum", "extern", "float", "for", "goto", "if", "inline", "int", "long", "register",
      "restrict", "return", "short", "signed", "sizeof", "static", "struct", "switch", "typedef",
      "union", "unsigned", "void", "volatile", "while", "_Alignas", "_Alignof", "_Atomic",
      "_Bool", "_Complex", "_Generic", "_Imaginary", "_Noreturn", "_Static_assert",
      "_Thread_local", "bit", "main"]
  | .python =>
    ["False", "None", "True", "and", "as", "assert", "async", "await", "break", "class",
      "continue", "def", "del", "elif", "else", "except", "finally", "for", "from", "global",
      "if", "import", "in", "is", "lambda", "nonlocal", "not", "or", "pass", "raise", "return",
      "try", "while", "with", "yield", "_", "case", "match", "int"]

/-- One unit of indentation. -/
def indentation : Dialect → String
  | .c => "  "
  | .python => "    "

/-- Checks a name of a circuit, or of the input that an instance stands for. -/
def checkName (d : Dialect) (name : Text) (id : Option Value) : Except Error Unit :=
  if !Text.isIdentifier name then
    match id with
    | none => .error (.notIdentifier name)
    | some id => .error (.inputNotIdentifier name id)
  else if d.reservedWords.any fun word => name == word then .error (.reservedWord name id)
  else if isGeneratedName name then .error (.generatedName name id)
  else .ok ()

/-- The name of a circuit that is given as data. -/
def circuitName (d : Dialect) (given : Value) : Except Error Text :=
  match given with
  | .text name => (d.checkName name none).map fun _ => name
  | _ => .error .notText

end Dialect

end Latchwork
