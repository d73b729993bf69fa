import Latchwork.CommandLine.Grammar
import Latchwork.FileTree

/-!
# Command lines

The two commands and their options, and what a command line asks for. Files are opened while the
command line is read: a file that is to be written is emptied at once, whatever happens later.
-/

namespace Latchwork.CommandLine

/-- What is to be done. -/
inductive Action where
  | generate
  | simulate
  deriving DecidableEq, Repr

namespace Action

/-- The name of an action. -/
def text : Action → String
  | .generate => "generate"
  | .simulate => "simulate"

/-- Every action. -/
def all : List Action := [.generate, .simulate]

/-- The action of a name. -/
def ofText? (t : Text) : Option Action := all.find? fun a => t == a.text

end Action

/-- The name of the program. -/
def program : String := "netcomp"

/-- The option that asks for help. -/
def helpOption : OptionSpec := ⟨.help, ["-h", "--help"], false⟩

/-- The option that names the exit flag. -/
def doneOption : OptionSpec := ⟨.done, ["--done"], true⟩

/-- The arguments before the action, which takes all that follows. -/
def mainGrammar : Grammar :=
  ⟨program, [helpOption, ⟨.verbose, ["-v", "--verbose"], false⟩], "ACTION", true⟩

/-- The arguments of an action. -/
def Action.grammar (a : Action) : Grammar :=
  let options :=
    match a with
    | .generate =>
      [helpOption, ⟨.name, ["-n", "--name"], true⟩,
        ⟨.outputDirectory, ["-o", "--output-dir"], true⟩, doneOption,
        ⟨.noVendor, ["--no-vendor"], false⟩, ⟨.python, ["--python"], false⟩,
        ⟨.archive, ["--archive"], true⟩]
    | .simulate => [helpOption, ⟨.input, ["-i", "--input"], true⟩, doneOption]
  ⟨program ++ " " ++ a.text, options, "NETLIST", false⟩

/-- A file by its name, or the standard stream. -/
inductive Channel where
  | file (name : Text)
  | standard
  deriving DecidableEq, Repr

/-- The channel that an argument stands for. -/
def Channel.ofText (t : Text) : Channel := if t == "-" then .standard else .file t

/-- What a command line asks for. An option without its value stands for an empty list, and an
assignment without its text for none. -/
structure Invocation where
  verbose : Bool := false
  action : Option Action := none
  netlist : Option Channel := none
  name : Option Value := none
  outputDirectory : Value := .text "."
  done : Value := .text "done"
  vendor : Bool := true
  python : Bool := false
  archive : Option Channel := none
  inputs : List (Option (Text × Bool)) := []

/-- Why a command line leads to nothing: help was asked for, or an argument is wrong. -/
inductive Stop where
  | help
  | usage (program : String) (message : Text)
  deriving DecidableEq, Repr

/-- A command line that has been read up to some point. -/
structure Setup where
  invocation : Invocation
  tree : FileTree
  extras : List Text
  stop : Option Stop

namespace Setup

/-- Stops at a wrong argument. -/
def refuse (s : Setup) (program : String) (message : Text) : Setup :=
  { s with stop := some (.usage program message) }

/-- Stops at a file that cannot be opened in a mode. A name that no file can have is not a value for
a file at all. -/
def refuseFile (s : Setup) (program label mode : String) (name : Text) (e : Error) : Setup :=
  s.refuse program <|
    match e with
    | .file fault =>
      "argument " ++ label ++ ": can't open '" ++ name ++ "': " ++ fault.text ++ ": " ++
        Text.quoted name
    | _ =>
      "argument " ++ label ++ ": invalid FileType('" ++ mode ++ "') value: " ++ Text.quoted name

/-- The input and the bit that an assignment gives. -/
def assignment? (text : Text) : Option (Text × Bool) :=
  match splitEquals text with
  | (name, some value) =>
    if value == "0" then some (name, false)
    else if value == "1" then some (name, true)
    else none
  | _ => none

/-- Takes an option without a value. -/
def takeFlag (s : Setup) : OptionId → Setup
  | .help => { s with stop := some .help }
  | .verbose => { s with invocation := { s.invocation with verbose := true } }
  | .noVendor => { s with invocation := { s.invocation with vendor := false } }
  | .python => { s with invocation := { s.invocation with python := true } }
  | _ => s

/-- The value of an option; one without a text is an empty list. -/
def valueOf (given : Option Text) : Value :=
  match given with
  | some text => .text text
  | none => .list []

/-- Takes the archive to write to, which is emptied. -/
def takeArchive (s : Setup) (program : String) (o : OptionSpec) (text : Text) : Setup :=
  let opened := { s with
    invocation := { s.invocation with archive := some (Channel.ofText text) } }
  match Channel.ofText text with
  | .standard => opened
  | .file name =>
    match s.tree.write name [] with
    | .ok tree => { opened with tree := tree }
    | .error e => s.refuseFile program o.label "wb" name e

/-- Takes an assignment to an input. -/
def takeInput (s : Setup) (program : String) (o : OptionSpec) (given : Option Text) : Setup :=
  let taken (assignment : Option (Text × Bool)) : Setup :=
    { s with invocation := { s.invocation with inputs := s.invocation.inputs ++ [assignment] } }
  match given with
  | none => taken none
  | some text =>
    match assignment? text with
    | some assignment => taken (some assignment)
    | none =>
      s.refuse program ("argument " ++ o.label ++ ": " ++ Text.quoted text ++
        " is not an input assignment, expecting NAME=0 or NAME=1")

/-- Takes an option with its value. -/
def takeValue (s : Setup) (program : String) (o : OptionSpec) (given : Option Text) : Setup :=
  match o.id with
  | .name => { s with invocation := { s.invocation with name := some (valueOf given) } }
  | .outputDirectory =>
    { s with invocation := { s.invocation with outputDirectory := valueOf given } }
  | .done => { s with invocation := { s.invocation with done := valueOf given } }
  | .archive =>
    match given with
    | some text => s.takeArchive program o text
    | none => { s with invocation := { s.invocation with archive := none } }
  | .input => s.takeInput program o given
  | _ => s

/-- Takes the netlist. -/
def takeNetlist (s : Setup) (program label : String) (text : Text) : Setup :=
  let opened := { s with
    invocation := { s.invocation with netlist := some (Channel.ofText text) } }
  match Channel.ofText text with
  | .standard => opened
  | .file name =>
    match s.tree.read name with
    | .ok _ => opened
    | .error e => s.refuseFile program label "r" name e

/-- Takes something that was given to an action, unless the command line has led to nothing. -/
def take (g : Grammar) (s : Setup) (e : Event) : Setup :=
  if s.stop.isSome then s
  else
    match e with
    | .flag o => s.takeFlag o.id
    | .value o text => s.takeValue g.program o text
    | .operand texts => s.takeNetlist g.program g.operand (texts.headD .empty)

/-- Takes the end of the arguments of a program. -/
def finish (s : Setup) (program : String) (ending : Ending) : Setup :=
  if s.stop.isSome then s
  else
    match ending with
    | .fault message => s.refuse program message
    | .finished extras => { s with extras := extras ++ s.extras }

/-- Takes an action with the arguments that follow it. -/
def takeAction (s : Setup) : List Text → Setup
  | [] => s
  | name :: rest =>
    match Action.ofText? name with
    | none =>
      let choices := ", ".intercalate (Action.all.map fun a => Text.quoted a.text)
      s.refuse program ("argument ACTION: invalid choice: " ++ Text.quoted name ++
        " (choose from " ++ choices ++ ")")
    | some a =>
      let s := { s with invocation := { s.invocation with action := some a } }
      let parsed := a.grammar.parse rest
      (parsed.events.foldl (take a.grammar) s).finish a.grammar.program parsed.ending

/-- Takes something that was given before or as the action. -/
def takeMain (s : Setup) (e : Event) : Setup :=
  if s.stop.isSome then s
  else
    match e with
    | .flag o => s.takeFlag o.id
    | .value .. => s
    | .operand texts => s.takeAction texts

/-- Reads a command line. Arguments that nothing takes are refused at the end. -/
def ofArguments (args : List Text) (tree : FileTree) : Setup :=
  let parsed := mainGrammar.parse args
  let start : Setup := ⟨{}, tree, [], none⟩
  let s := (parsed.events.foldl takeMain start).finish program parsed.ending
  if s.stop.isSome || s.extras.isEmpty then s
  else s.refuse program ("unrecognized arguments: " ++ Text.intercalate " " s.extras)

end Setup

end Latchwork.CommandLine
