import Latchwork.Json.Value
import Latchwork.Text.Identifier

/-!
# Schemas

The form that data must have. Checking a value lists every violation, each with its place in the
value; a rule about numbers, texts, lists or objects says nothing about values of other types.
-/

namespace Latchwork.Json

/-- The types that a schema can ask for. -/
inductive Kind where
  | integer
  | string
  | array
  | object
  deriving DecidableEq, Repr

/-- The name of a type. -/
def Kind.text : Kind → String
  | .integer => "integer"
  | .string => "string"
  | .array => "array"
  | .object => "object"

/-- A form of data. -/
inductive Schema where
  /-- An integer that is not negative. A floating-point number with an integral value counts. -/
  | natural
  /-- Any text. -/
  | string
  /-- A text that starts with a letter or low line and goes on with letters, digits and low lines; a
  line feed at its end is not looked at. -/
  | identifier
  /-- A list whose elements have one form. -/
  | array (items : Schema)
  /-- A list of two elements, each with its form. -/
  | pair (first second : Schema)
  /-- An object with these members and no others, of which some are required. -/
  | object (members : List (String × Schema)) (required : List String)

/-- What a value violates. -/
inductive Rule where
  | kind (expected : Kind)
  | minimum
  | minItems
  | maxItems
  | pattern
  | required (missing : List String)
  | additional (names : List Text)
  deriving DecidableEq, Repr

/-- The keyword of a rule. -/
def Rule.keyword : Rule → String
  | .kind _ => "type"
  | .minimum => "minimum"
  | .minItems => "minItems"
  | .maxItems => "maxItems"
  | .pattern => "pattern"
  | .required _ => "required"
  | .additional _ => "additionalProperties"

/-- The wording of a violated rule; unknown members are listed by name. -/
def Rule.detail : Rule → Value
  | .kind expected => .text ("The instance must be of type \"" ++ expected.text ++ "\"")
  | .minimum => .text "The value may not be less than 0"
  | .minItems => .text "The array has too few elements (minimum 2)"
  | .maxItems => .text "The array has too many elements (maximum 2)"
  | .pattern => .text "The text must match the regular expression \"^[A-Za-z_][A-Za-z0-9_]*$\""
  | .required missing =>
    .text ("The object is missing required properties " ++
      (Value.list (missing.map fun (key : String) => .text key)).display)
  | .additional names => .list (names.map .text)

/-- A violated rule and the place of the value in the whole: the keys and positions on the way. -/
structure Violation where
  path : List String
  rule : Rule
  deriving DecidableEq, Repr

/-- The place of a violation, each step after a slash. -/
def Violation.location (v : Violation) : String := String.join (v.path.map ("/" ++ ·))

/-- Numbers that no integer test can be made of. -/
inductive NotFinite where
  | nan
  | infinity
  deriving DecidableEq, Repr

/-- Is the value an integer, or a floating-point number with an integral value? -/
def isIntegral : Value → Except NotFinite Bool
  | .int _ => .ok true
  | .real .nan => .error .nan
  | .real (.infinite _) => .error .infinity
  | .real x => .ok x.toInt?.isSome
  | _ => .ok false

/-- Is the value a number below zero? -/
def isBelowZero : Value → Bool
  | .int z => decide (z < 0)
  | .real x => x.isNegative
  | _ => false

/-- One violation, or none. -/
def violationIf (condition : Bool) (path : List String) (rule : Rule) : List Violation :=
  if condition then [⟨path, rule⟩] else []

/-- A way to find the violations of a value at a place. -/
abbrev Check := List String → Value → Except NotFinite (List Violation)

/-- The violations of the elements of a list, each checked at its position. -/
def checkItems (check : Check) (path : List String) :
    Nat → List Value → Except NotFinite (List Violation)
  | _, [] => .ok []
  | position, v :: rest => do
    let here ← check (path ++ [Numeral.decimal position]) v
    let later ← checkItems check path (position + 1) rest
    return here ++ later

/-- The violations of the members of an object, each checked in the order of the object if there is
a check for its key. -/
def checkGiven (checks : List (String × Check)) (path : List String) :
    List (Text × Value) → Except NotFinite (List Violation)
  | [] => .ok []
  | (key, v) :: rest => do
    let here ← match checks.find? fun c => key == c.1 with
      | some (name, check) => check (path ++ [name]) v
      | none => pure []
    let later ← checkGiven checks path rest
    return here ++ later

mutual
/-- The violations of a value at a place. -/
def Schema.check (schema : Schema) (path : List String) (v : Value) :
    Except NotFinite (List Violation) :=
  match schema with
  | .natural => do
    let integral ← isIntegral v
    return violationIf (!integral) path (.kind .integer) ++
      violationIf (isBelowZero v) path .minimum
  | .string =>
    .ok (violationIf (v.text?.isNone) path (.kind .string))
  | .identifier =>
    match v with
    | .text s =>
      let name := if s.endsWith '\n' then s.points.dropLast else s.points
      .ok (violationIf (!Text.isIdentifierPoints name) path .pattern)
    | _ => .ok [⟨path, .kind .string⟩]
  | .array items =>
    match v with
    | .list values => checkItems items.check path 0 values
    | _ => .ok [⟨path, .kind .array⟩]
  | .pair first second =>
    match v with
    | .list values => do
      let one ← match values[0]? with
        | some a => first.check (path ++ ["0"]) a
        | none => pure []
      let two ← match values[1]? with
        | some b => second.check (path ++ ["1"]) b
        | none => pure []
      return violationIf (decide (values.length < 2)) path .minItems ++
        violationIf (decide (2 < values.length)) path .maxItems ++ one ++ two
    | _ => .ok [⟨path, .kind .array⟩]
  | .object members required =>
    match v with
    | .object given => do
      let missing := required.filter fun (key : String) => (v.member? key).isNone
      let unknown := (given.map (·.1)).filter fun (key : Text) => !members.any fun m => key == m.1
      let inner ← checkGiven (Schema.checkers members) path given
      return violationIf (!missing.isEmpty) path (.required missing) ++
        violationIf (!unknown.isEmpty) path (.additional (unknown.mergeSort Text.precedes)) ++
        inner
    | _ => .ok [⟨path, .kind .object⟩]

/-- The checks of the members that an object may have. -/
def Schema.checkers : List (String × Schema) → List (String × Check)
  | [] => []
  | (key, schema) :: rest => (key, schema.check) :: Schema.checkers rest
end

/-- The order in which violations are listed: by place, then by keyword, both as texts. -/
def Violation.before (a b : Violation) : Bool :=
  decide (a.location < b.location) ||
    (a.location == b.location && decide (a.rule.keyword ≤ b.rule.keyword))

/-- Every violation of a value, in order. -/
def Schema.violations (schema : Schema) (v : Value) : Except NotFinite (List Violation) :=
  (schema.check [] v).map fun found => found.mergeSort Violation.before

end Latchwork.Json
