import Latchwork.Dialect.Basic

/-!
# Expressions of a procedure

Expressions as they stand in the emitted text, together with the expressions that pack bits into
words and take them out again. Where bits are shifted past the width of a small integer, the C
dialect widens them first, and large weights are marked as wide; both are part of the expression.
-/

namespace Latchwork

/-- Operators between two operands. -/
inductive Operator where
  | and
  | or
  | xor
  | add
  | times
  | equal
  deriving DecidableEq, Repr

/-- An expression. Shifts are always in brackets. -/
inductive Expr where
  | name (n : Name)
  | literal (value : Nat)
  | wideLiteral (value : Nat)
  | widen (e : Expr)
  | binary (op : Operator) (left right : Expr)
  | shiftLeft (e : Expr) (count : Nat)
  | shiftRight (e : Expr) (count : Nat)
  | choose (condition whenSet whenClear : Expr)
  | element (storage address : Name)
  deriving DecidableEq, Repr

namespace Expr

/-- The expression of a wire. -/
def wire (w : Wire) : Expr := .name (.wire w)

/-- Terms joined by an operator from the left; no terms make zero. -/
def joined (op : Operator) : List Expr → Expr
  | [] => .literal 0
  | first :: rest => rest.foldl (.binary op) first

/-- A bit as the bit of a word at an index. -/
def shifted (d : Dialect) (index : Nat) (bit : Expr) : Expr :=
  if index = 0 then bit
  else if d = .c ∧ 31 ≤ index then .shiftLeft (.widen bit) index
  else .shiftLeft bit index

/-- A word made of bits, least significant first. -/
def word (d : Dialect) (bits : List Expr) : Expr :=
  joined .or (bits.mapIdx (shifted d))

/-- The bit of a word at an index. -/
def bit (word : Expr) (index : Nat) : Expr :=
  .binary .and (if index = 0 then word else .shiftRight word index) (.literal 1)

/-- A bit times a weight. -/
def scaled (d : Dialect) (weight : Nat) (bit : Expr) : Expr :=
  .binary .times (if d = .c ∧ power 2 31 ≤ weight then .wideLiteral weight else .literal weight) bit

/-- Bits packed into one number, the first with weight one, the second with weight two and so on. -/
def packed (d : Dialect) (bits : List Expr) : Expr :=
  joined .add (bits.mapIdx fun index bit => if index = 0 then bit else scaled d (power 2 index) bit)

end Expr

namespace Operator

/-- How an operator is written between its operands. -/
def text : Operator → String
  | .and => " & "
  | .or => " | "
  | .xor => " ^ "
  | .add => " + "
  | .times => "*"
  | .equal => " == "

end Operator

namespace Expr

/-- How an expression is written. -/
def text (d : Dialect) : Expr → Text
  | .name n => n.text
  | .literal value => Numeral.decimal value
  | .wideLiteral value => Numeral.decimal value ++ "ULL"
  | .widen e => "(unsigned long long)" ++ e.text d
  | .binary op a b =>
    let plain := a.text d ++ op.text ++ b.text d
    if op = .equal ∧ d = .python then "int(" ++ plain ++ ")" else plain
  | .shiftLeft e count => "(" ++ e.text d ++ " << " ++ Numeral.decimal count ++ ")"
  | .shiftRight e count => "(" ++ e.text d ++ " >> " ++ Numeral.decimal count ++ ")"
  | .choose condition whenSet whenClear =>
    match d with
    | .c => condition.text d ++ " ? " ++ whenSet.text d ++ " : " ++ whenClear.text d
    | .python => whenSet.text d ++ " if " ++ condition.text d ++ " else " ++ whenClear.text d
  | .element storage address => storage.text ++ "[" ++ address.text ++ "]"

/-- How deeply an expression is nested. -/
def depth : Expr → Nat
  | .widen e => e.depth + 1
  | .binary _ a b => max a.depth b.depth + 1
  | .shiftLeft e _ => e.depth + 1
  | .shiftRight e _ => e.depth + 1
  | .choose condition whenSet whenClear =>
    max condition.depth (max whenSet.depth whenClear.depth) + 1
  | _ => 1

end Expr

/-- The expression that packs named bits into one number. -/
def Expr.encoded (names : List Text) : Expr :=
  .packed .python (names.map fun name => .name (.given name))

/-- The text of the expression that packs named bits, in writing. The last weight is the longest. -/
def encodeOutputs (names : List Text) : Except Error Text :=
  Numeral.writtenPower (names.length - 1) ((Expr.encoded names).text .python)

/-- The bits of a number by name, the first being the least significant. A repeated name keeps its
first place and its last bit. -/
def unpackOutputs {Name : Type} [BEq Name] (value : Int) (names : List Name) :
    List (Name × Nat) :=
  let bits := names.mapIdx fun index name => (name, ((value >>> index) % 2).toNat)
  names.eraseDups.map fun name =>
    (name, ((bits.reverse.find? fun b => b.1 == name).map (·.2)).getD 0)

end Latchwork
