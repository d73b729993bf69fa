import Latchwork.Environment
import Latchwork.Memory.Altsyncram
import Latchwork.Plan.Basic
import Latchwork.Procedure.Source
import Latchwork.Text.Lowercase

/-!
# Preparing a plan

The plan of a netlist: its C procedure, the initialisation files of its memories, their vendor
instantiations, and its Python procedure if that is asked for. Two of the settings can be overridden
from the environment.
-/

namespace Latchwork

namespace Environment

/-- The value of a setting in the environment. Two quotes alone stand for the empty text. -/
def setting? (env : Environment) (setting : String) : Option Text :=
  (env.get? ("NETCOMP_" ++ setting)).map fun (value : Text) =>
    if value == Text.ofString "\"\"" then .empty
    else if value == Text.ofString "\"\"\n" then "\n"
    else value

end Environment

/-- What is to be generated. The vendor flag may be any value; a text is read as a flag word. -/
structure Settings where
  done : Value := .text "done"
  vendor : Value := .bool true
  python : Bool := false

namespace Settings

/-- The words for a flag that is clear. -/
def clearWords : List String := ["0", "no", "n", "false", ""]

/-- The words for a flag that is set. -/
def setWords : List String := ["1", "yes", "y", "true"]

/-- A flag word, in letters of any case. -/
def flagOfText (setting : String) (text : Text) : Except Error Bool :=
  let word := Text.lowercase text
  if clearWords.any fun w => word == w then .ok false
  else if setWords.any fun w => word == w then .ok true
  else .error (.override setting word)

/-- The exit flag in force. -/
def doneIn (s : Settings) (env : Environment) : Value :=
  ((env.setting? "done").map .text).getD s.done

/-- The vendor flag in force. -/
def vendorIn (s : Settings) (env : Environment) : Except Error Bool :=
  match env.setting? "vendor" with
  | some text => flagOfText "vendor" text
  | none =>
    match s.vendor with
    | .text text => flagOfText "vendor" text
    | v => .ok v.isTrue

end Settings

/-- The version that generated files name. -/
def version : String := "0.1.0"

/-- The first line of a file of vendor instantiations. -/
def vendorHeader : String := "// Generated by netcomp " ++ version ++ ". Do not edit.\n"

namespace Netlist

/-- The file of vendor instantiations, if there are memories. -/
def vendorFiles [Machine] (n : Netlist) (name : Text) : Except Error (List (Text × Text)) := do
  let text ← n.altsyncramText
  return if text.isEmpty then [] else [(name ++ "_altsyncram.v", vendorHeader ++ text)]

/-- The plan of a netlist under settings that are in force. -/
def plan [Machine] (n : Netlist) (name done : Value)
    (vendor python : Bool) : Except Error Plan := do
  let source ← n.source .c name done
  let base := name.plain
  let p ← (Plan.empty name).addTexts [(base ++ ".c", source)]
  let p ← p.addTexts ((← n.initFiles).map fun f => (↑f.1, ↑f.2))
  let p ← if vendor then p.addTexts (← n.vendorFiles base) else pure p
  if python then p.addTexts [(base ++ ".py", ← n.source .python name done)] else return p

/-- Prepares the plan of a netlist. A bad override is found before anything is reported. -/
def prepare [Machine] (n : Netlist) (name : Value) (s : Settings) (env : Environment) :
    List LogEntry × Except Error Plan :=
  let done := s.doneIn env
  match s.vendorIn env with
  | .error e => ([], .error e)
  | .ok vendor =>
    let report : Text := "Compiling '" ++ name.plain ++ "': " ++ Numeral.decimal n.size ++
      " instances, exit flag " ++ done.display
    ([.debug report], n.plan name done vendor s.python)

/-- Prepares a plan and writes it below a directory, in a directory of its own name. -/
def build [Machine] (n : Netlist) (name root : Value) (s : Settings) (env : Environment)
    (tree : FileTree) : Extraction × Except Error Place :=
  match n.prepare name s env with
  | (logs, .error e) => (⟨tree, logs⟩, .error e)
  | (logs, .ok p) =>
    match p.extractBelow tree root name with
    | (e, .error cause) => (⟨e.tree, logs ++ e.logs⟩, .error cause)
    | (e, .ok place) => (⟨e.tree, logs ++ e.logs ++ [.info "Done."]⟩, .ok place)

end Netlist

end Latchwork
