import Std.Data.HashMap
import Latchwork.Bits
import Latchwork.Procedure.Compile

/-!
# Running a procedure

A procedure runs over a store of named contents: numbers of any size, truth values, other data that
was given as an argument, and the tables of memories. Names are looked up by their spelling; a name
without a content that is spelled like the procedure stands for the procedure itself. One turn of
the loop either returns the packed outputs or leaves a store for the next turn.

A run takes its turns in bursts of one, two, four and so on. Together they are more than there are
states, so a run that has not returned after the last of them comes back to a state and never does.
-/

namespace Latchwork

/-- What a name stands for. A table has a size; words past its cells are zero. -/
inductive Content where
  | number (z : Int)
  | flag (b : Bool)
  | foreign (v : Value)
  | procedure
  | table (size : Nat) (cells : List Content)
  deriving Repr

namespace Content

/-- The content that data stands for. -/
def ofValue : Value → Content
  | .int z => .number z
  | .bool b => .flag b
  | v => .foreign v

/-- The number that a content counts as. -/
def integer? : Content → Option Int
  | .number z => some z
  | .flag b => some (b.toNat : Nat)
  | _ => none

/-- The number that a content must count as. -/
def integer (c : Content) : Except Error Int :=
  match c.integer? with
  | some z => .ok z
  | none => .error .wrongOperand

/-- Does a content count as true? -/
def isTrue : Content → Bool
  | .number z => z != 0
  | .flag b => b
  | .foreign v => v.isTrue
  | .procedure => true
  | .table size _ => size != 0

/-- Are two contents equal? Numbers and truth values are compared as numbers. -/
def equals : Content → Content → Bool
  | .foreign v, .foreign w => v.equals w
  | .foreign v, c => c.integer?.any fun z => v.equals (.int z)
  | c, .foreign v => c.integer?.any fun z => v.equals (.int z)
  | .procedure, .procedure => true
  | a, b => a.integer?.isSome && a.integer? == b.integer?

/-- The number of bits that a content takes. -/
def bits : Content → Nat
  | .number z => z.natAbs.log2 + 2
  | _ => 1

end Content

/-- The contents of names, by spelling, and the name of the procedure that runs. -/
structure Store where
  self : Text
  contents : Std.HashMap Text Content

namespace Store

/-- What a name stands for. -/
def get (s : Store) (n : Name) : Except Error Content :=
  match s.contents[n.text]? with
  | some c => .ok c
  | none => if n.text = s.self then .ok .procedure else .error (.unboundName n.text)

/-- Lets a name stand for a content. -/
def set (s : Store) (n : Name) (c : Content) : Store :=
  { s with contents := s.contents.insert n.text c }

/-- A name stands for what it was set to. -/
@[simp] theorem get_set_self (s : Store) (n : Name) (c : Content) : (s.set n c).get n = .ok c := by
  simp [get, set]

/-- Names of other spellings stand for what they stood for. -/
theorem get_set_of_ne (s : Store) {m n : Name} (c : Content) (h : m.text ≠ n.text) :
    (s.set n c).get m = s.get m := by
  have hne : ¬n.text = m.text := fun heq => h heq.symm
  have hget : (s.set n c).contents[m.text]? = s.contents[m.text]? := by
    simp [set, Std.HashMap.getElem?_insert, hne]
  unfold get
  rw [hget]
  rfl

end Store

namespace Operator

/-- The value of an operator on numbers. -/
def onNumbers : Operator → Int → Int → Int
  | .and, a, b => Bits.and a b
  | .or, a, b => Bits.or a b
  | .xor, a, b => Bits.xor a b
  | .add, a, b => a + b
  | .times, a, b => a * b
  | .equal, a, b => if a = b then 1 else 0

/-- The value of an operator. Truth values alone have a truth value where the operator works bit by
bit; anything that counts as a number has a number; all contents can be compared. -/
def apply : Operator → Content → Content → Except Error Content
  | .equal, a, b => .ok (.number (if a.equals b then 1 else 0))
  | .and, .flag a, .flag b => .ok (.flag (a && b))
  | .or, .flag a, .flag b => .ok (.flag (a || b))
  | .xor, .flag a, .flag b => .ok (.flag (a != b))
  | op, a, b => do
    let x ← a.integer
    let y ← b.integer
    return .number (op.onNumbers x y)

/-- On numbers every operator has the value that it has on numbers. -/
@[simp] theorem apply_number (op : Operator) (x y : Int) :
    op.apply (.number x) (.number y) = .ok (.number (op.onNumbers x y)) := by
  cases op <;>
    simp [apply, onNumbers, Content.integer, Content.integer?, Content.equals, bind, Except.bind,
      pure, Except.pure]

end Operator

/-- The place in a table of some size that a number stands for: numbers below zero count from the
end. -/
def placeIn (size : Nat) : Int → Except Error Nat
  | .ofNat k => if k < size then .ok k else .error .outOfRange
  | .negSucc k => if k < size then .ok (size - (k + 1)) else .error .outOfRange

namespace Content

/-- The word of a table at an address. -/
def wordAt (table address : Content) : Except Error Content :=
  match table with
  | .table size cells => do
    let k ← placeIn size (← address.integer)
    return cells.getD k (.number 0)
  | _ => .error .wrongOperand

/-- Cells with the one at a place replaced; missing cells before it are zero. -/
def setCell (word : Content) : Nat → List Content → List Content
  | 0, [] => [word]
  | 0, _ :: rest => word :: rest
  | k + 1, [] => .number 0 :: setCell word k []
  | k + 1, c :: rest => c :: setCell word k rest

/-- A table with the word at an address replaced. -/
def withWord (table address word : Content) : Except Error Content :=
  match table with
  | .table size cells => do
    let k ← placeIn size (← address.integer)
    return .table size (setCell word k cells)
  | _ => .error .wrongOperand

/-- The replaced cell holds the word, and all others hold what they held. -/
theorem getD_setCell (word : Content) (k j : Nat) (cells : List Content) :
    (setCell word k cells).getD j (.number 0) =
      if j = k then word else cells.getD j (.number 0) := by
  induction k generalizing j cells with
  | zero =>
    cases cells <;> cases j <;> simp [setCell]
  | succ k ih =>
    cases cells with
    | nil =>
      cases j with
      | zero => simp [setCell]
      | succ j => simpa [setCell] using ih j []
    | cons c rest =>
      cases j with
      | zero => simp [setCell]
      | succ j => simpa [setCell] using ih j rest

end Content

/-- The value of an expression. -/
def Expr.eval (s : Store) : Expr → Except Error Content
  | .name n => s.get n
  | .literal value => .ok (.number value)
  | .wideLiteral value => .ok (.number value)
  | .widen e => e.eval s
  | .binary op a b => do
    let x ← a.eval s
    let y ← b.eval s
    op.apply x y
  | .shiftLeft e count => do
    let x ← (← e.eval s).integer
    return .number (x * (power 2 count : Nat))
  | .shiftRight e count => do
    let x ← (← e.eval s).integer
    return .number (x >>> count)
  | .choose condition whenSet whenClear => do
    let x ← condition.eval s
    if x.isTrue then whenSet.eval s else whenClear.eval s
  | .element storage address => do
    let table ← s.get storage
    let k ← s.get address
    table.wordAt k

/-- The store that a statement leaves. -/
def Statement.run (s : Store) : Statement → Except Error Store
  | .bind dest value _ => (value.eval s).map (s.set dest)
  | .bindWord dest value => (value.eval s).map (s.set dest)
  | .assign dest value => (value.eval s).map (s.set dest)
  | .store enable storage address data => do
    let flag ← s.get enable
    if !flag.isTrue then return s
    let word ← s.get data
    let table ← s.get storage
    let k ← s.get address
    return s.set storage (← table.withWord k word)

/-- The store that a declaration leaves. -/
def Declaration.run [Machine] (s : Store) : Declaration → Except Error Store
  | .cells names value => .ok (names.foldl (fun s n => s.set n (.number value.toNat)) s)
  | .storage name shape =>
    shape.checkPadding.map fun _ =>
      s.set name (.table shape.depth (shape.init.map fun (word : Nat) => .number word))

/-- The number of bits of state that a declaration holds, where a cell holds some number of bits. -/
def Declaration.bits (width : Nat) : Declaration → Nat
  | .cells names _ => names.length * width
  | .storage _ shape => shape.depth * (shape.dataWidth + width)

/-- How far a run has come: it has returned, or it has a store for the next turn. -/
inductive Progress where
  | returned (result : Content)
  | running (s : Store)

namespace Procedure

/-- The store before the first turn. -/
def start [Machine] (p : Procedure) (arguments : List Content) : Except Error Store :=
  let given := (p.inputs.zip arguments).foldl
    (fun (s : Store) (name, c) => s.set (.given name) c) ⟨p.name, ∅⟩
  p.declarations.foldlM Declaration.run given

/-- One turn of the loop. -/
def turn (p : Procedure) (s : Store) : Except Error Progress := do
  let s ← p.settle.foldlM Statement.run s
  let flag ← s.get p.exitFlag
  if flag.isTrue then return .returned (← p.result.eval s)
  let s ← p.next.foldlM Statement.run s
  let s ← p.commit.foldlM Statement.run s
  return .running s

/-- One more turn, unless the run has returned. -/
def advance (p : Procedure) : Progress → Except Error Progress
  | .returned result => .ok (.returned result)
  | .running s => p.turn s

/-- So many more turns. -/
def turns (p : Procedure) : Nat → Progress → Except Error Progress
  | 0, here => .ok here
  | n + 1, here => do p.turns n (← p.advance here)

/-- As many turns as a power of two with this exponent. -/
def burst (p : Procedure) : Nat → Progress → Except Error Progress
  | 0, here => p.advance here
  | k + 1, here => do p.burst k (← p.burst k here)

/-- Turns add up. -/
theorem turns_add (p : Procedure) (m n : Nat) (here : Progress) :
    p.turns (m + n) here = (p.turns m here).bind (p.turns n) := by
  induction m generalizing here with
  | zero => simp [turns, Except.bind]
  | succ m ih =>
    rw [Nat.succ_add]
    simp only [turns, bind]
    cases p.advance here with
    | error e => rfl
    | ok next => exact ih next

/-- A burst takes as many turns as it says. -/
theorem burst_eq_turns (p : Procedure) (k : Nat) (here : Progress) :
    p.burst k here = p.turns (power 2 k) here := by
  induction k generalizing here with
  | zero =>
    change p.advance here = p.turns 1 here
    simp only [turns, bind]
    cases p.advance here <;> rfl
  | succ k ih =>
    have htwice : power 2 (k + 1) = power 2 k + power 2 k := Nat.mul_two _
    rw [htwice, turns_add]
    simp only [burst, bind, ih]

/-- Takes bursts of growing size, so many of them. -/
def bursts (p : Procedure) : (count size : Nat) → Progress → Except Error Content
  | 0, _, _ => .error .endless
  | count + 1, size, here =>
    match p.burst size here with
    | .error e => .error e
    | .ok (.returned result) => .ok result
    | .ok (.running s) => p.bursts count (size + 1) (.running s)

/-- The number of bits of state. A cell holds a bit, or what can be made of an argument. -/
def stateBits (p : Procedure) (arguments : List Content) : Nat :=
  let width := arguments.foldl (fun total c => total + c.bits) (arguments.length + 3)
  p.declarations.foldl (fun total d => total + d.bits width) 0

/-- Runs a procedure on as many arguments as it has inputs. -/
def run [Machine] (p : Procedure) (arguments : List Content) : Except Error Content := do
  let s ← p.start arguments
  p.bursts (p.stateBits arguments + 1) 0 (.running s)

/-- The name that nothing can be bound to. -/
def constantName : String := "__debug__"

/-- Expressions that are nested more deeply than this are not run. -/
def nestingLimit : Nat := Stack.levelsPerFrame * (Stack.frames - Stack.usedByTranslator)

/-- The expression of a statement. -/
def expressionOf? : Statement → Option Expr
  | .bind _ value _ => some value
  | .bindWord _ value => some value
  | .assign _ value => some value
  | .store .. => none

/-- The expressions of a procedure. -/
def expressions (p : Procedure) : List Expr :=
  p.result :: (p.settle ++ p.next ++ p.commit).filterMap expressionOf?

/-- Checks that a procedure can be run at all. -/
def checkRunnable (p : Procedure) : Except Error Unit :=
  if p.expressions.any fun e => nestingLimit < e.depth then .error .nesting
  else if (p.name :: p.inputs).contains constantName then .error (.forbiddenName constantName)
  else .ok ()

/-- Runs a procedure on arguments given by position. -/
def call [Machine] (p : Procedure) (arguments : List Value) : Except Error Content :=
  if arguments.length = p.inputs.length then p.run (arguments.map Content.ofValue)
  else .error .callArguments

/-- The argument that is given for a name. -/
def argumentFor (given : List (Text × Value)) (name : Text) : Except Error Value :=
  match given.find? fun g => g.1 == name with
  | some g => .ok g.2
  | none => .error .callArguments

/-- Runs a procedure on arguments given by name: exactly those of its inputs. -/
def callNamed [Machine] (p : Procedure) (given : List (Text × Value)) : Except Error Content :=
  if given.all fun g => p.inputs.contains g.1 then do
    p.call (← p.inputs.mapM (argumentFor given))
  else .error .callArguments

end Procedure

/-- Compiles a netlist to a procedure that can be run. -/
def Netlist.executable [Machine] (n : Netlist) (name done : Value) : Except Error Procedure := do
  let p ← n.compile .python name done
  p.checkRunnable
  return p

/-- The name of a circuit unless another one is given. -/
def defaultName : Value := .text "top"

/-- Runs a netlist until its exit flag is set, and gives the named outputs in order. -/
def Netlist.simulate [Machine] (n : Netlist) (given : List (Text × Value)) (done : Value) :
    Except Error (List (Text × Nat)) := do
  let p ← n.executable defaultName done
  let result ← p.callNamed given
  return unpackOutputs (← result.integer) p.outputs

end Latchwork
