import Latchwork.Cell
import Latchwork.Netlist.Basic

/-!
# Memory initialisation files

The text that gives the initial value of every location of a memory, one location a line, in the
format that synthesis tools read.
-/

namespace Latchwork

namespace InitFile

/-- The file name of the memory with an id. -/
def name (id : Index) : String := "ram_c" ++ id.text ++ ".mif"

/-- The line of one location. -/
def locationLine (address value : Nat) : String :=
  Numeral.hexadecimal address ++ ":" ++ Numeral.hexadecimal value ++ ";"

/-- The lines of an initialisation file. -/
def lines (shape : MemoryShape) : List String :=
  ["-- Generated by netcomp",
      "WIDTH=" ++ Numeral.decimal shape.dataWidth ++ ";",
      "DEPTH=" ++ Numeral.decimal shape.depth ++ ";",
      "ADDRESS_RADIX=HEX;",
      "DATA_RADIX=HEX;",
      "CONTENT BEGIN"] ++
    shape.contents.mapIdx locationLine ++ ["END;"]

/-- The text of an initialisation file. -/
def text (shape : MemoryShape) : String := String.join ((lines shape).map (· ++ "\n"))

/-- The file name of the memory with an id, in writing. -/
def writtenName (id : Index) : Except Error String := Numeral.written id.numerals (name id)

/-- The text for a memory whose name can be written and whose initial values can be held. -/
def ofShape [Machine] (id : Index) (shape : MemoryShape) : Except Error String := do
  let _ ← writtenName id
  shape.checkPadding
  return text shape

/-- The initialisation file of a memory instance. -/
def ofInstance [Machine] (i : Instance) : Except Error String := do
  let shape ← MemoryShape.ofInstance i
  ofShape i.id shape

/-- The name and the text of the initialisation file that an instance needs: only memories with
initial values need one. -/
def needed [Machine] (i : Instance) : Except Error (List (String × String)) := do
  let kind ← i.primitive
  if kind.isMemory then
    let shape ← MemoryShape.ofInstance i
    if shape.init.isEmpty then return [] else return [(name i.id, ← ofShape i.id shape)]
  else return []

end InitFile

/-- The initialisation files of a netlist, in ascending order of instances. -/
def Netlist.initFiles [Machine] (n : Netlist) : Except Error (List (String × String)) :=
  (n.instances.mapM InitFile.needed).map List.flatten

end Latchwork
