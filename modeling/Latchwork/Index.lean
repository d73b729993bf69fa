import Latchwork.Text.Numeral

/-!
# Indices

Instance ids, output ports and output counts are natural numbers. A front-end may give a truth value
in place of a number: it counts as one or zero, and keeps its own spelling wherever it is shown.
-/

namespace Latchwork

/-- A natural number as it was given: as a number or as a truth value. -/
inductive Index where
  | number (n : Nat)
  | flag (b : Bool)
  deriving DecidableEq, Repr

namespace Index

/-- The natural number that an index stands for. -/
def value : Index → Nat
  | .number n => n
  | .flag b => b.toNat

/-- How an index is spelled. -/
def text : Index → String
  | .number n => Numeral.decimal n
  | .flag true => "True"
  | .flag false => "False"

/-- The numbers in the spelling of an index. -/
def numerals : Index → List Nat
  | .number n => [n]
  | .flag _ => []

@[simp] theorem value_number (n : Nat) : (number n).value = n := rfl

@[simp] theorem value_flag (b : Bool) : (flag b).value = b.toNat := rfl

end Index

end Latchwork
