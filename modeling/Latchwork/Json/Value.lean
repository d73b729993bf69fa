import Latchwork.Binary64
import Latchwork.Index
import Latchwork.Text.Quoted

/-!
# Data values

Data from outside a netlist, before it is checked: the values of the JSON format, with integers of
any size apart from floating-point numbers. The members of an object keep their order.
-/

namespace Latchwork

/-- A value of the JSON format. -/
inductive Value where
  | null
  | bool (b : Bool)
  | int (z : Int)
  | real (x : Binary64)
  | text (s : Text)
  | list (items : List Value)
  | object (members : List (Text × Value))
  deriving Repr

namespace Value

mutual
/-- How a value is shown in messages: texts are quoted, and the constants have their own names. -/
def display : Value → String
  | .null => "None"
  | .bool true => "True"
  | .bool false => "False"
  | .int z => Numeral.integer z
  | .real x => x.text
  | .text s => Text.quoted s
  | .list items => "[" ++ ", ".intercalate (displayItems items) ++ "]"
  | .object members => "\x7b" ++ ", ".intercalate (displayMembers members) ++ "\x7d"

/-- The elements of a list, each as it is shown. -/
def displayItems : List Value → List String
  | [] => []
  | v :: rest => v.display :: displayItems rest

/-- The members of an object, each as it is shown. -/
def displayMembers : List (Text × Value) → List String
  | [] => []
  | (key, v) :: rest => (Text.quoted key ++ ": " ++ v.display) :: displayMembers rest
end

/-- The text of a value: a text is itself, any other value is as it is shown. -/
def plain : Value → Text
  | .text s => s
  | v => v.display

mutual
/-- The numbers in the text of a value, apart from those in its texts. -/
def numerals : Value → List Nat
  | .int z => [z.natAbs]
  | .list items => numeralsOfItems items
  | .object members => numeralsOfMembers members
  | _ => []

/-- The numbers in the elements of a list. -/
def numeralsOfItems : List Value → List Nat
  | [] => []
  | v :: rest => v.numerals ++ numeralsOfItems rest

/-- The numbers in the members of an object. -/
def numeralsOfMembers : List (Text × Value) → List Nat
  | [] => []
  | (_, v) :: rest => v.numerals ++ numeralsOfMembers rest
end

mutual
/-- How deeply lists and objects are nested in a value. -/
def depth : Value → Nat
  | .list items => depthOfItems items + 1
  | .object members => depthOfMembers members + 1
  | _ => 0

/-- The depth of the deepest element of a list. -/
def depthOfItems : List Value → Nat
  | [] => 0
  | v :: rest => max v.depth (depthOfItems rest)

/-- The depth of the deepest member of an object. -/
def depthOfMembers : List (Text × Value) → Nat
  | [] => 0
  | (_, v) :: rest => max v.depth (depthOfMembers rest)
end

/-- The elements met when going through a value: those of a list, the code points of a text, the
keys of an object. Nothing else can be gone through. -/
def elements? : Value → Option (List Value)
  | .list items => some items
  | .text s => some (s.points.map fun p => .text ⟨[p]⟩)
  | .object members => some (members.map fun m => .text m.1)
  | _ => none

/-- The index that a value can stand for: a number that is not negative, or a truth value. -/
def index? : Value → Option Index
  | .int (.ofNat n) => some (.number n)
  | .bool b => some (.flag b)
  | _ => none

/-- The integer that a value equals as a number. -/
def integer? : Value → Option Int
  | .int z => some z
  | .bool b => some (b.toNat : Nat)
  | .real x => x.toInt?
  | _ => none

/-- The text, if the value is one. -/
def text? : Value → Option Text
  | .text s => some s
  | _ => none

/-- Does a value count as true where a flag is wanted? Empty texts, lists and objects, zero and null
do not. -/
def isTrue : Value → Bool
  | .null => false
  | .bool b => b
  | .int z => z != 0
  | .real (.finite _ mantissa _) => mantissa != 0
  | .real _ => true
  | .text s => !s.isEmpty
  | .list items => !items.isEmpty
  | .object members => !members.isEmpty

mutual
/-- Are two values equal? Numbers and truth values are compared as numbers, and the order of the
members of an object does not count. -/
def equals : Value → Value → Bool
  | .null, .null => true
  | .text s, .text t => s == t
  | .list items, .list others => equalsItems items others
  | .object members, .object others =>
    members.length == others.length && equalsMembers members others
  | .real x, .real y => x != .nan && (x == y || (x.toInt?.isSome && x.toInt? == y.toInt?))
  | v, w => v.integer?.isSome && v.integer? == w.integer?

/-- Are the elements of two lists equal, one by one? -/
def equalsItems : List Value → List Value → Bool
  | [], [] => true
  | v :: rest, w :: others => v.equals w && equalsItems rest others
  | _, _ => false

/-- Is every member equal to the one with its key among others? -/
def equalsMembers : List (Text × Value) → List (Text × Value) → Bool
  | [], _ => true
  | (key, v) :: rest, others =>
    (match others.find? fun m => m.1 == key with
      | some m => v.equals m.2
      | none => false) && equalsMembers rest others
end

/-- The member of an object with the given key. -/
def member? (v : Value) (key : Text) : Option Value :=
  match v with
  | .object members => (members.find? fun m => m.1 == key).map (·.2)
  | _ => none

end Value

/-- An index as a data value. -/
def Index.toValue : Index → Value
  | .number n => .int n
  | .flag b => .bool b

/-- An index is recovered from its data value. -/
@[simp] theorem Index.index?_toValue (i : Index) : i.toValue.index? = some i := by
  cases i <;> rfl

end Latchwork
