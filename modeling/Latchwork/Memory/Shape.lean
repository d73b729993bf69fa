import Latchwork.Capacity
import Latchwork.Instance

/-!
# Memory shapes

The widths, the initial values and the number of ports of a memory, read from the parameters of its
instance, and the ports into which its inputs and outputs are split. A shape has a data width above
zero, at most one initial value for each location, and no initial value that is too wide.
-/

namespace Latchwork

/-- The shape of a memory. A memory has one port, or two if it is dual. -/
structure MemoryShape where
  dataWidth : Nat
  addressWidth : Nat
  init : List Nat
  dual : Bool
  dataWidth_pos : 0 < dataWidth
  length_init_le : init.length ≤ power 2 addressWidth
  init_lt : ∀ value ∈ init, value < power 2 dataWidth
  deriving DecidableEq

namespace MemoryShape

/-- The number of ports. -/
def portCount (s : MemoryShape) : Nat := if s.dual then 2 else 1

/-- The number of locations. -/
def depth (s : MemoryShape) : Nat := power 2 s.addressWidth

/-- Each port has a write enable, a data bus and an address bus. -/
def inputCount (s : MemoryShape) : Nat := s.portCount * (1 + s.dataWidth + s.addressWidth)

/-- Each port has an output bus. -/
def outputCount (s : MemoryShape) : Nat := s.portCount * s.dataWidth

/-- The number of locations past the given values. -/
def padding (s : MemoryShape) : Nat := s.depth - s.init.length

/-- The initial value of every location; locations past the given values are zero. -/
def contents (s : MemoryShape) : List Nat := s.init ++ List.replicate s.padding 0

/-- Every location has an initial value. -/
@[simp] theorem length_contents (s : MemoryShape) : s.contents.length = s.depth := by
  have := s.length_init_le
  simp only [contents, padding, depth, List.length_append, List.length_replicate]
  omega

/-- Every initial value fits the data width. -/
theorem contents_lt (s : MemoryShape) : ∀ value ∈ s.contents, value < power 2 s.dataWidth := by
  intro value h
  rcases List.mem_append.1 h with h | h
  · exact s.init_lt value h
  · rw [List.eq_of_mem_replicate h]
    exact Nat.two_pow_pos _

/-- Checks that the zeros past the given values can be held. Past 64 bits of address they cannot be
counted. -/
def checkPadding [Machine] (s : MemoryShape) : Except Error Unit :=
  if 64 ≤ s.addressWidth then .error .numberTooLarge else Capacity.checkList s.padding

/-- The initial values of all locations, if they can be held. -/
def table [Machine] (s : MemoryShape) : Except Error (List Nat) :=
  s.checkPadding.map fun _ => s.contents

/-- Checks that the number of locations can be written. -/
def checkDepth (s : MemoryShape) : Except Error Unit := Numeral.writtenPower s.addressWidth ()

/-- Does a number fit a width? -/
def fits (width value : Nat) : Bool := value == 0 || decide (value.log2 < width)

/-- A number fits a width if it is below the power of two. -/
theorem fits_iff {width value : Nat} : fits width value = true ↔ value < power 2 width := by
  rcases Nat.eq_zero_or_pos value with rfl | h
  · exact iff_of_true rfl (Nat.two_pow_pos width)
  · have hne : value ≠ 0 := by omega
    simp [fits, hne, Nat.log2_lt hne]

/-- Checks that every initial value fits a width, from an address on. -/
def checkInit (id : Index) (width : Nat) : Nat → List Int → Except Error (List Nat)
  | _, [] => .ok []
  | address, value :: rest =>
    if 0 ≤ value ∧ fits width value.toNat then
      (checkInit id width (address + 1) rest).map (value.toNat :: ·)
    else .error (.initialValueTooWide id value address width)

/-- Values that pass the check are as many as before, and each of them fits. -/
theorem checkInit_ok {id : Index} {width address : Nat} {init : List Int} {words : List Nat}
    (h : checkInit id width address init = .ok words) :
    words.length = init.length ∧ ∀ word ∈ words, word < power 2 width := by
  induction init generalizing address words with
  | nil =>
    cases h
    simp
  | cons value rest ih =>
    unfold checkInit at h
    split at h
    · next hv =>
      cases hr : checkInit id width (address + 1) rest with
      | error e =>
        rw [hr] at h
        cases h
      | ok later =>
        rw [hr] at h
        cases h
        obtain ⟨hl, hw⟩ := ih hr
        refine ⟨by simp [hl], fun word hword => ?_⟩
        rcases List.mem_cons.1 hword with rfl | hword
        · exact fits_iff.1 hv.2
        · exact hw word hword
    · cases h

/-- Checks that the limit of the initial values, if there are any, can be held. -/
def checkLimit [Machine] (width : Nat) (init : List Int) : Except Error Unit :=
  if init.isEmpty then .ok () else Capacity.checkPower width

/-- The shape that parameters describe. The widths, the number of initial values and their sizes are
judged in this order. -/
def make [Machine] (id : Index) (dataWidth addressWidth : Int) (init : List Int) (dual : Bool) :
    Except Error MemoryShape :=
  if hd : dataWidth ≤ 0 then .error (.dataWidth id dataWidth)
  else if addressWidth < 0 then .error (.addressWidth id addressWidth)
  else (Capacity.checkPower addressWidth.toNat).bind fun _ =>
    if hl : addressWidth.toNat < init.length ∧ power 2 addressWidth.toNat < init.length then
      .error (.tooManyInitialValues id init.length (power 2 addressWidth.toNat))
    else (checkLimit dataWidth.toNat init).bind fun _ =>
      match h : checkInit id dataWidth.toNat 0 init with
      | .error e => .error e
      | .ok words => .ok
        { dataWidth := dataWidth.toNat
          addressWidth := addressWidth.toNat
          init := words
          dual := dual
          dataWidth_pos := by omega
          length_init_le := by
            have : addressWidth.toNat < power 2 addressWidth.toNat := Nat.lt_two_pow_self
            rw [(checkInit_ok h).1]
            omega
          init_lt := (checkInit_ok h).2 }

/-- Reads the shape of a memory instance. All parameters are read before any is judged. -/
def ofInstance [Machine] (i : Instance) : Except Error MemoryShape := do
  let kind ← i.primitive
  if !kind.isMemory then throw (.notMemory i.id kind)
  let dataWidth ← i.intParam "dwidth"
  let addressWidth ← i.intParam "awidth"
  let init ← if i.hasParam "init" then i.intsParam "init" else pure []
  make i.id dataWidth addressWidth init (kind == .dualRam)

end MemoryShape

/-- One port of a memory. Buses have the least significant bit first. -/
structure MemoryPort where
  enable : Wire
  data : List Wire
  address : List Wire
  output : List Wire
  deriving DecidableEq, Repr

namespace MemoryPort

/-- How a port is written. -/
def text (p : MemoryPort) : String :=
  "(port " ++ p.enable.text ++ " (data " ++ Wire.texts p.data ++ ") (addr " ++
    Wire.texts p.address ++ ") (q " ++ Wire.texts p.output ++ "))"

/-- The numbers in the text of a port. -/
def numerals (p : MemoryPort) : List Nat :=
  (p.enable :: p.data ++ p.address ++ p.output).flatMap Wire.numerals

/-- The text of a port, in writing. -/
def written (p : MemoryPort) : Except Error String := Numeral.written p.numerals p.text

end MemoryPort

/-- The part of a list that belongs to one of several groups of equal width. -/
def slice {α : Type} (width group : Nat) (xs : List α) : List α :=
  (xs.drop (group * width)).take width

/-- A group that lies within a list has the full width. -/
theorem length_slice {α : Type} {width group : Nat} {xs : List α}
    (h : (group + 1) * width ≤ xs.length) : (slice width group xs).length = width := by
  rw [Nat.succ_mul] at h
  simp only [slice, List.length_take, List.length_drop]
  omega

namespace MemoryShape

/-- Splits the inputs of an instance into ports. They are ordered as write enables, then data buses,
then address buses, each kind in the order of the ports. -/
def splitPorts (s : MemoryShape) (i : Instance) : List MemoryPort :=
  let enables := i.inputs.take s.portCount
  let data := (i.inputs.drop s.portCount).take (s.portCount * s.dataWidth)
  let address := i.inputs.drop (s.portCount + s.portCount * s.dataWidth)
  let outputs := (List.range s.outputCount).map i.wire
  enables.mapIdx fun k enable =>
    { enable := enable
      data := slice s.dataWidth k data
      address := slice s.addressWidth k address
      output := slice s.dataWidth k outputs }

/-- The ports of an instance that has as many inputs as its shape asks for. -/
def ports (s : MemoryShape) (i : Instance) : Except Error (List MemoryPort) :=
  if i.inputs.length = s.inputCount then .ok (s.splitPorts i)
  else .error (.memoryInputs i.id s.dataWidth s.addressWidth s.inputCount i.inputs.length)

end MemoryShape

end Latchwork
