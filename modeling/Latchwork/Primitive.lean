import Latchwork.Text.Basic

/-!
# Primitives

The closed set of cells that a netlist may contain.
-/

namespace Latchwork

/-- A kind of cell. -/
inductive Primitive where
  | low
  | high
  | inv
  | and2
  | or2
  | xor2
  | eq2
  | xorcy
  | muxcy
  | name
  | delay
  | delayEn
  | ram
  | dualRam
  deriving DecidableEq, Repr

namespace Primitive

/-- Every primitive. -/
def all : List Primitive :=
  [low, high, inv, and2, or2, xor2, eq2, xorcy, muxcy, name, delay, delayEn, ram, dualRam]

/-- How a primitive is written in a netlist. -/
def text : Primitive → String
  | low => "low"
  | high => "high"
  | inv => "inv"
  | and2 => "and2"
  | or2 => "or2"
  | xor2 => "xor2"
  | eq2 => "eq2"
  | xorcy => "xorcy"
  | muxcy => "muxcy"
  | name => "name"
  | delay => "delay"
  | delayEn => "delayEn"
  | ram => "ram"
  | dualRam => "dualRam"

/-- The name of a primitive in capitals, with a low line between words. -/
def capitals : Primitive → String
  | delayEn => "DELAY_EN"
  | dualRam => "DUAL_RAM"
  | p => p.text.toUpper

/-- The primitive that is written this way. -/
def ofText? (t : Text) : Option Primitive := all.find? fun p => t == p.text

/-- Registers hold one bit. -/
def isRegister (p : Primitive) : Bool := p == delay || p == delayEn

/-- Memories hold words. -/
def isMemory (p : Primitive) : Bool := p == ram || p == dualRam

/-- The outputs of a sequential primitive hold state of the cycle before. -/
def isSequential (p : Primitive) : Bool := p.isRegister || p.isMemory

/-- The number of inputs; that of a memory depends on its parameters. -/
def arity? : Primitive → Option Nat
  | low => some 0
  | high => some 0
  | inv => some 1
  | and2 => some 2
  | or2 => some 2
  | xor2 => some 2
  | eq2 => some 2
  | xorcy => some 2
  | muxcy => some 3
  | name => some 0
  | delay => some 2
  | delayEn => some 3
  | ram => none
  | dualRam => none

end Primitive

end Latchwork
