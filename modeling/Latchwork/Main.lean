import Latchwork.CommandLine.Run

/-!
# The program

The command line over the real file system. What lies at the places that the arguments name is read
before the run, and what the run has changed is written after it.
-/

namespace Latchwork.CommandLine

/-- The names in the file system that a run of a command line may look at. -/
def namedFiles (args : List Text) : List Text :=
  let events (g : Grammar) (args : List Text) : List Event := (g.parse args).events
  (events mainGrammar args).flatMap fun e =>
    match e with
    | .operand (name :: rest) =>
      match Action.ofText? name with
      | none => []
      | some a => (events a.grammar rest).flatMap fun e =>
          match e with
          | .operand [file] => [file, stem file]
          | .value _ text => text.toList
          | _ => []
    | _ => []

/-- The place and every place above it, from the top down. -/
def ancestors (p : Place) : List Place :=
  (List.range p.steps.length).map fun k => ⟨p.fromTop, p.steps.take (k + 1)⟩

/-- What lies under a name. -/
def probe (name : String) : IO (Option Entry) := do
  try
    let content ← IO.FS.readBinFile name
    return some (.file content.toList)
  catch _ =>
    try
      let _ ← IO.FS.realPath name
      return some .directory
    catch _ => return none

/-- The part of the file system that a run may look at. -/
def gather (places : List Place) : IO FileTree :=
  places.foldlM
    (fun t p => do
      match ← probe p.text.printed with
      | some entry => return t.set p entry
      | none => return t) FileTree.empty

/-- Writes the entries that a run has added or changed. -/
def writeBack (before after : FileTree) : IO Unit :=
  after.entries.forM fun (p, entry) => do
    if before.find? p != some entry then
      match entry with
      | .directory => IO.FS.createDirAll p.text.printed
      | .file content => IO.FS.writeBinFile p.text.printed ⟨content.toArray⟩
      | .device => return

/-- The settings in the environment of the process. -/
def environment : IO Environment :=
  ["NETCOMP_done", "NETCOMP_vendor"].filterMapM fun name => do
    return (← IO.getEnv name).map fun value => (Text.ofString name, Text.ofString value)

/-- Reads a stream to its end. -/
partial def readAll (stream : IO.FS.Stream) (sofar : String) : IO String := do
  let line ← stream.getLine
  if line.isEmpty then return sofar else readAll stream (sofar ++ line)

end Latchwork.CommandLine

open Latchwork CommandLine Desktop in
/-- Runs the command line. -/
def main (args : List String) : IO UInt32 := do
  let texts := args.map Text.ofString
  let named := namedFiles texts
  let places := (named ++ named.flatMap fun a => named.map fun b => Path.joinText a b).flatMap
    fun name => ancestors (Path.ofText name).place
  let tree ← gather places.eraseDups
  let env ← environment
  let input ← if args.contains "-" then readAll (← IO.getStdin) "" else pure ""
  let report := run ⟨texts, env, input, tree⟩
  writeBack tree report.tree
  (← IO.getStdout).write ⟨report.output.toArray⟩
  (← IO.getStderr).putStr report.diagnostics.printed
  match report.conclusion with
  | .exited code => return code.toUInt32
  | .raised e =>
    (← IO.getStderr).putStrLn e.message.printed
    return 1
