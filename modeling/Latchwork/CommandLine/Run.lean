import Latchwork.CommandLine.Setup
import Latchwork.Netlist.Form
import Latchwork.Plan.Prepare
import Latchwork.Procedure.Run

/-!
# Running a command line

What a command line does, as a function of its arguments, the environment, the standard input and
the files of the working directory.
-/

namespace Latchwork.CommandLine

/-- What a run starts from. -/
structure Session where
  args : List Text
  env : Environment
  input : Text
  tree : FileTree

/-- How a run ends: with an exit code, or with an error that is not reported but passed on. -/
inductive Conclusion where
  | exited (code : Nat)
  | raised (e : Error)

/-- What a run leaves behind. The cause is the error that was reported, if there was one. -/
structure Report where
  conclusion : Conclusion
  output : Bytes
  diagnostics : Text
  tree : FileTree
  cause : Option Error

/-- Text with line feeds alone at the ends of lines. -/
def normalizeNewlines : List Char → List Char
  | '\r' :: '\n' :: rest => '\n' :: normalizeNewlines rest
  | '\r' :: rest => '\n' :: normalizeNewlines rest
  | c :: rest => c :: normalizeNewlines rest
  | [] => []

/-- The text of the netlist. Files end their lines in any of the usual ways. -/
def netlistText (s : Session) (tree : FileTree) : Channel → Except Error Text
  | .standard => .ok s.input
  | .file name => do
    let text ← Bytes.decoded (← tree.read name)
    return String.ofList (normalizeNewlines text.toList)

/-- The name of a channel. -/
def Channel.name : Channel → Text
  | .file name => name
  | .standard => "<stdin>"

/-- The last step of a file name without its extension. A name that starts with points has none
before another character. -/
def stem (name : Text) : Text :=
  let base := (name.splitOn '/').getLast?.getD .empty
  match base.points.reverse.dropWhile (· != .char '.') with
  | _ :: front => if front.any (· != .char '.') then ⟨front.reverse⟩ else base
  | [] => base

/-- The reports that are shown, one a line. -/
def shownLogs (verbose : Bool) (logs : List LogEntry) : Text :=
  .join ((logs.filter fun l => verbose || l.level == .info).map fun l => l.message ++ "\n")

/-- Is an error of this family reported with an exit code? -/
def isReported : ErrorFamily → Bool
  | .unknownPrimitive | .malformedInstance | .missingParameter | .reservedIdentifier => true
  | .missingOutput | .cyclicNetlist | .invalidNetlist | .badValue => true
  | .unencodable | .undecodable => true
  | _ => false

/-- A run that ends in an error. -/
def failed (tree : FileTree) (shown : Text) (e : Error) : Report :=
  if isReported e.raised.family then
    ⟨.exited 1, [], shown ++ program ++ ": error: " ++ e.raised.message ++ "\n", tree,
      some e.raised⟩
  else ⟨.raised e.raised, [], shown, tree, some e.raised⟩

/-- A run that ends in a wrong argument. -/
def refused (tree : FileTree) (program : String) (message : Text) : Report :=
  ⟨.exited 2, [], program ++ ": error: " ++ message ++ "\n", tree, none⟩

/-- A run that ends well. -/
def completed (tree : FileTree) (shown : Text) (output : Bytes) : Report :=
  ⟨.exited 0, output, shown, tree, none⟩

/-- Writes the archive of a plan. A device has no room for its directory. -/
def writeArchive (p : Plan) (tree : FileTree) (shown : Text) (target : Channel) : Report :=
  match p.archive, target with
  | .error e, _ => failed tree shown e
  | .ok bytes, .standard => completed tree shown bytes
  | .ok bytes, .file name =>
    if tree.isDevice name then failed tree shown .archiveField
    else
      match tree.write name bytes with
      | .ok tree => completed tree shown []
      | .error e => failed tree shown e

/-- Generates the files of a netlist, into an archive if one is asked for. -/
def generate [Machine] (env : Environment) (i : Invocation) (source : Channel) (n : Netlist)
    (tree : FileTree) : Report :=
  let name := i.name.getD (.text (stem source.name))
  let settings : Settings := { done := i.done, vendor := .bool i.vendor, python := i.python }
  match n.prepare name settings env with
  | (logs, .error e) => failed tree (shownLogs i.verbose logs) e
  | (logs, .ok p) =>
    match i.archive with
    | some target => writeArchive p tree (shownLogs i.verbose logs) target
    | none =>
      let (e, result) := p.extractBelow tree i.outputDirectory name
      let shown := shownLogs i.verbose (logs ++ e.logs)
      match result with
      | .ok _ => completed e.tree shown []
      | .error cause => failed e.tree shown cause

/-- The assignments that were given, none of which may be without its text. -/
def assignments (position : Nat) :
    List (Option (Text × Bool)) → Except Error (List (Text × Bool))
  | [] => .ok []
  | none :: _ => .error (.emptyAssignment position)
  | some given :: rest => (assignments (position + 1) rest).map (given :: ·)

/-- The inputs that were given, each in the place where it was first given, with its last value. -/
def givenInputs (inputs : List (Text × Bool)) : List (Text × Value) :=
  (inputs.map (·.1)).eraseDups.map fun name =>
    let last := (inputs.reverse.find? fun g => g.1 == name).map (·.2)
    (name, .int (last.getD false).toNat)

/-- The complaint about the inputs that were given: the first that the netlist does not have, or
else the first of the netlist that is missing. -/
def inputComplaint (n : Netlist) (given : List Text) : Option Text :=
  match given.find? fun name => !n.inputs.contains name with
  | some name => some ("netlist has no input named " ++ Text.quoted name)
  | none =>
    (n.inputs.find? fun name => !given.contains name).map fun name =>
      "input " ++ Text.quoted name ++ " must be given a value with -i " ++ name ++ "=VALUE"

/-- The number that bits stand for, the first being the least significant. -/
def packBits (bits : List Nat) : Nat := bits.foldr (fun b rest => b + 2 * rest) 0

/-- The outputs of a simulation, one a line, and the number that they are packed into. -/
def outputText (bits : List (Text × Nat)) : Text :=
  let line (b : Text × Nat) : Text := b.1 ++ "=" ++ Numeral.decimal b.2 ++ "\n"
  Text.join (bits.map line) ++ Numeral.decimal (packBits (bits.map (·.2))) ++ "\n"

/-- Simulates a netlist and writes its outputs. -/
def simulateOn [Machine] (n : Netlist) (given : List (Text × Value)) (done : Value) :
    Except Error Bytes := do
  let bits ← n.simulate given done
  let text ← Numeral.written [packBits (bits.map (·.2))] (outputText bits)
  text.utf8

/-- Simulates a netlist on the inputs that were given. -/
def simulate [Machine] (i : Invocation) (n : Netlist) (tree : FileTree) : Report :=
  match assignments 0 i.inputs with
  | .error e => failed tree .empty e
  | .ok inputs =>
    let given := givenInputs inputs
    match inputComplaint n (given.map (·.1)) with
    | some message => refused tree program message
    | none =>
      match simulateOn n given i.done with
      | .ok output => completed tree .empty output
      | .error e => failed tree .empty e

/-- Runs a command line. -/
def run [Machine] (s : Session) : Report :=
  let setup := Setup.ofArguments s.args s.tree
  match setup.stop with
  | some .help => completed setup.tree .empty []
  | some (.usage program message) => refused setup.tree program message
  | none =>
    match setup.invocation.action, setup.invocation.netlist with
    | some action, some source =>
      match (netlistText s setup.tree source).bind Netlist.ofText with
      | .error e => failed setup.tree .empty e
      | .ok n =>
        match action with
        | .generate => generate s.env setup.invocation source n setup.tree
        | .simulate => simulate setup.invocation n setup.tree
    | _, _ => completed setup.tree .empty []

end Latchwork.CommandLine
