import Latchwork.Memory.InitFile
import Latchwork.Procedure.Name

/-!
# Vendor memories

A memory as an instantiation of the vendor's block memory in Verilog. Buses are written as
concatenations with the most significant bit first.
-/

namespace Latchwork

/-- The concatenation of bits that are given with the least significant first. -/
def busText (names : List Text) : Text := "\x7b" ++ Text.intercalate "," names.reverse ++ "\x7d"

/-- A bus of wires. -/
def Wire.bus (ws : List Wire) : Text := busText (ws.map fun w => w.name)

/-- An instantiation of a block memory. -/
structure Altsyncram where
  id : Index
  kind : Primitive
  shape : MemoryShape
  ports : List MemoryPort

namespace Altsyncram

/-- The name of the instantiation. -/
def cell (a : Altsyncram) : String := "c" ++ a.id.text

/-- The connections of a memory port. -/
def portConnections (suffix : String) (port : MemoryPort) : List (String × Text) :=
  [("address_" ++ suffix, Wire.bus port.address),
    ("wren_" ++ suffix, port.enable.name),
    ("data_" ++ suffix, Wire.bus port.data),
    ("q_" ++ suffix, Wire.bus port.output)]

/-- The connections of the second port where it is not used. -/
def unusedPort : List (String × Text) :=
  [("address_b", "1'b1"), ("wren_b", "1'b0"), ("data_b", "1'b1"), ("q_b", "")]

/-- The connections that are tied to constants or left open. -/
def tieOffs : List (String × Text) :=
  [("aclr0", "1'b0"), ("aclr1", "1'b0"), ("addressstall_a", "1'b0"), ("addressstall_b", "1'b0"),
    ("byteena_a", "1'b1"), ("byteena_b", "1'b1"), ("clock1", "1'b1"), ("clocken0", "1'b1"),
    ("clocken1", "1'b1"), ("clocken2", "1'b1"), ("clocken3", "1'b1"), ("eccstatus", ""),
    ("rden_a", "1'b1"), ("rden_b", "1'b1")]

/-- The connection of the clock. -/
def clock : List (String × Text) := [("clock0", "clock")]

/-- All connections: the clock, the ports, and what is tied off. -/
def connections (a : Altsyncram) : List (String × Text) :=
  clock ++ ((["a", "b"].zip a.ports).map fun p => portConnections p.1 p.2).flatten ++
    (if a.shape.dual then [] else unusedPort) ++ tieOffs

/-- A text parameter. -/
def quote (value : String) : String := "\"" ++ value ++ "\""

/-- The suffixes of the ports in use. -/
def suffixes (a : Altsyncram) : List String := if a.shape.dual then ["a", "b"] else ["a"]

/-- One parameter for each port in use. -/
def perPort (a : Altsyncram) (name value : String) : List (String × String) :=
  a.suffixes.map fun s => (name ++ "_" ++ s, value)

/-- A parameter that only a memory with two ports has. -/
def ifDual (a : Altsyncram) (name value : String) : List (String × String) :=
  if a.shape.dual then [(name, value)] else []

/-- All parameters. The initialisation file is named only if there are initial values. -/
def parameters (a : Altsyncram) : List (String × String) :=
  a.ifDual "address_reg_b" (quote "CLOCK0") ++
    a.perPort "clock_enable_input" (quote "BYPASS") ++
    a.perPort "clock_enable_output" (quote "BYPASS") ++
    a.ifDual "indata_reg_b" (quote "CLOCK0") ++
    (if a.shape.init.isEmpty then [] else [("init_file", quote (InitFile.name a.id))]) ++
    [("lpm_type", quote "altsyncram")] ++
    a.perPort "numwords" (Numeral.decimal a.shape.depth) ++
    [("operation_mode", quote (if a.shape.dual then "BIDIR_DUAL_PORT" else "SINGLE_PORT"))] ++
    a.perPort "outdata_aclr" (quote "NONE") ++
    a.perPort "outdata_reg" (quote "UNREGISTERED") ++
    [("power_up_uninitialized", quote "FALSE")] ++
    a.ifDual "read_during_write_mode_mixed_ports" (quote "DONT_CARE") ++
    a.perPort "read_during_write_mode_port" (quote "NEW_DATA_NO_NBE_READ") ++
    a.perPort "widthad" (Numeral.decimal a.shape.addressWidth) ++
    a.perPort "width" (Numeral.decimal a.shape.dataWidth) ++
    [("width_byteena_a", "1"), ("width_byteena_b", "1")] ++
    a.ifDual "wrcontrol_wraddress_reg_b" (quote "CLOCK0")

/-- The text of an instantiation. -/
def text (a : Altsyncram) : Text :=
  let connection (c : String × Text) : Text := "  ." ++ c.1 ++ " (" ++ c.2 ++ ")"
  let parameter (p : String × String) : String := "  " ++ a.cell ++ "." ++ p.1 ++ " = " ++ p.2
  "// " ++ a.kind.text ++ " instance " ++ a.id.text ++ "\n" ++
    "altsyncram " ++ a.cell ++ " (\n" ++
    Text.intercalate ",\n" (a.connections.map connection) ++ ");\n" ++
    "defparam\n" ++ ",\n".intercalate (a.parameters.map parameter) ++ ";\n"

/-- The numbers in the text of an instantiation that its instance gives. -/
def numerals (a : Altsyncram) : List Nat :=
  a.id.numerals ++ a.ports.flatMap MemoryPort.numerals

/-- The text of an instantiation, in writing. -/
def written (a : Altsyncram) : Except Error Text := Numeral.written a.numerals a.text

/-- The instantiation of a memory instance. -/
def ofInstance [Machine] (i : Instance) : Except Error Altsyncram := do
  let kind ← i.primitive
  match ← Cell.ofInstance i with
  | .memory shape ports =>
    shape.checkDepth
    return ⟨i.id, kind, shape, ports⟩
  | _ => throw (.notMemory i.id kind)

/-- The instantiation that an instance needs: only memories need one. -/
def needed [Machine] (i : Instance) : Except Error (List Altsyncram) := do
  let kind ← i.primitive
  if kind.isMemory then return [← ofInstance i] else return []

end Altsyncram

/-- The instantiations of all memories of a netlist, in ascending order. -/
def Netlist.altsyncrams [Machine] (n : Netlist) : Except Error (List Altsyncram) :=
  (n.instances.mapM Altsyncram.needed).map List.flatten

/-- The text of all instantiations, with an empty line between two of them. -/
def Netlist.altsyncramText [Machine] (n : Netlist) : Except Error Text := do
  let memories ← n.altsyncrams
  return .intercalate "\n" (← memories.mapM Altsyncram.written)

end Latchwork
