import Latchwork.Component
import Latchwork.Proofs.Outcome

/-!
# What a checked instance is

The check of an instance, read backwards: which wires and parameters an instance has whose check
gave a cell, and how the cell stands for its primitive. Later modules take instances apart by these
cases and never open the check itself.
-/

namespace Latchwork

open Outcome

namespace Cell

/-- How a cell stands for an instance of a primitive. -/
inductive StandsFor [Machine] (i : Instance) : Primitive → Cell → Prop where
  | low (h : i.inputs = []) : StandsFor i .low (.constant false)
  | high (h : i.inputs = []) : StandsFor i .high (.constant true)
  | inv {a : Wire} (h : i.inputs = [a]) : StandsFor i .inv (.inverter a)
  | and2 {a b : Wire} (h : i.inputs = [a, b]) : StandsFor i .and2 (.gate .and a b)
  | or2 {a b : Wire} (h : i.inputs = [a, b]) : StandsFor i .or2 (.gate .or a b)
  | xor2 {a b : Wire} (h : i.inputs = [a, b]) : StandsFor i .xor2 (.gate .xor a b)
  | xorcy {a b : Wire} (h : i.inputs = [a, b]) : StandsFor i .xorcy (.gate .xor a b)
  | eq2 {a b : Wire} (h : i.inputs = [a, b]) : StandsFor i .eq2 (.gate .equal a b)
  | muxcy {carry data select : Wire} (h : i.inputs = [carry, data, select]) :
    StandsFor i .muxcy (.multiplexer select carry data)
  | name {name : Text} (h : i.inputs = []) (hname : i.param "name" = .ok name) :
    StandsFor i .name (.input name)
  | delay {clock data : Wire} {init : Bool} (h : i.inputs = [clock, data])
    (hinit : registerInit i = .ok init) : StandsFor i .delay (.register init none data)
  | delayEn {clock enable data : Wire} {init : Bool} (h : i.inputs = [clock, enable, data])
    (hinit : registerInit i = .ok init) : StandsFor i .delayEn (.register init (some enable) data)
  | memory {kind : Primitive} {shape : MemoryShape} (hkind : kind.isMemory = true)
    (hshape : MemoryShape.ofInstance i = .ok shape) (h : i.inputs.length = shape.inputCount) :
    StandsFor i kind (.memory shape (shape.splitPorts i))

/-- The number of outputs that a cell drives. -/
def outputCount : Cell → Nat
  | .memory shape _ => shape.outputCount
  | _ => 1

/-- A combinational cell drives one output. -/
theorem outputCount_eq_one {c : Cell} (h : c.isSequential = false) : c.outputCount = 1 := by
  cases c with
  | memory shape ports => cases h
  | _ => rfl

/-- A primitive that is no memory, on as many wires as it takes. -/
theorem build_ok [Machine] {i : Instance} {kind : Primitive} {c : Cell}
    (hkind : kind.isMemory = false)
    (hlength : i.inputs.length = kind.arity?.getD 0) (h : build i kind i.inputs = .ok c) :
    StandsFor i kind c ∧ c.outputCount = 1 := by
  generalize hw : i.inputs = wires at h hlength
  cases kind with
  | low =>
    obtain rfl := List.length_eq_zero_iff.1 hlength
    cases h
    exact ⟨.low hw, rfl⟩
  | high =>
    obtain rfl := List.length_eq_zero_iff.1 hlength
    cases h
    exact ⟨.high hw, rfl⟩
  | inv =>
    obtain ⟨a, rfl⟩ := List.length_eq_one_iff.1 hlength
    cases h
    exact ⟨.inv hw, rfl⟩
  | and2 =>
    obtain ⟨a, b, rfl⟩ := List.length_eq_two.1 hlength
    cases h
    exact ⟨.and2 hw, rfl⟩
  | or2 =>
    obtain ⟨a, b, rfl⟩ := List.length_eq_two.1 hlength
    cases h
    exact ⟨.or2 hw, rfl⟩
  | xor2 =>
    obtain ⟨a, b, rfl⟩ := List.length_eq_two.1 hlength
    cases h
    exact ⟨.xor2 hw, rfl⟩
  | eq2 =>
    obtain ⟨a, b, rfl⟩ := List.length_eq_two.1 hlength
    cases h
    exact ⟨.eq2 hw, rfl⟩
  | xorcy =>
    obtain ⟨a, b, rfl⟩ := List.length_eq_two.1 hlength
    cases h
    exact ⟨.xorcy hw, rfl⟩
  | muxcy =>
    obtain ⟨carry, data, select, rfl⟩ := List.length_eq_three.1 hlength
    cases h
    exact ⟨.muxcy hw, rfl⟩
  | name =>
    obtain rfl := List.length_eq_zero_iff.1 hlength
    obtain ⟨name, hname, rfl⟩ := map_eq_ok.1 h
    exact ⟨.name hw hname, rfl⟩
  | delay =>
    obtain ⟨clock, data, rfl⟩ := List.length_eq_two.1 hlength
    obtain ⟨init, hinit, rfl⟩ := map_eq_ok.1 h
    exact ⟨.delay hw hinit, rfl⟩
  | delayEn =>
    obtain ⟨clock, enable, data, rfl⟩ := List.length_eq_three.1 hlength
    obtain ⟨init, hinit, rfl⟩ := map_eq_ok.1 h
    exact ⟨.delayEn hw hinit, rfl⟩
  | ram => cases hkind
  | dualRam => cases hkind

private theorem checkOutputs_ok {i : Instance} {kind : Primitive} {needed : Nat}
    (h : checkOutputs i kind needed = .ok ()) : i.outputCount.value = needed := by
  unfold checkOutputs at h
  split at h
  · assumption
  · cases h

/-- The check of an instance, read backwards. -/
theorem ofInstance_ok [Machine] {i : Instance} {kind : Primitive} {c : Cell}
    (hkind : i.primitive = .ok kind) (h : ofInstance i = .ok c) :
    StandsFor i kind c ∧ i.outputCount.value = c.outputCount := by
  unfold ofInstance at h
  obtain ⟨kind', hkind', h⟩ := bind_eq_ok.1 h
  obtain rfl : kind = kind' := by simpa [hkind] using hkind'
  split at h
  · next hm =>
    obtain ⟨shape, hshape, h⟩ := bind_eq_ok.1 h
    obtain ⟨ports, hports, h⟩ := bind_eq_ok.1 h
    obtain ⟨_, hout, h⟩ := bind_eq_ok.1 h
    cases h
    unfold MemoryShape.ports at hports
    split at hports
    · next hl =>
      cases hports
      exact ⟨.memory hm hshape hl, checkOutputs_ok hout⟩
    · cases hports
  · next hm =>
    dsimp only at h
    split at h
    · cases h
    · next hl =>
      obtain ⟨_, hout, h⟩ := bind_eq_ok.1 h
      obtain ⟨hfor, hcount⟩ := build_ok (by simpa using hm) (by simpa using hl) h
      exact ⟨hfor, (checkOutputs_ok hout).trans hcount.symm⟩

end Cell

namespace Component

/-- The check of an instance, read backwards, with its id and its primitive. -/
theorem ofInstance_ok [Machine] {i : Instance} {c : Component} (h : ofInstance i = .ok c) :
    c.id = i.id ∧ i.primitive = .ok c.kind ∧ Cell.StandsFor i c.kind c.cell ∧
      i.outputCount.value = c.cell.outputCount := by
  unfold ofInstance at h
  obtain ⟨kind, hkind, h⟩ := bind_eq_ok.1 h
  obtain ⟨cell, hcell, h⟩ := bind_eq_ok.1 h
  cases h
  exact ⟨rfl, hkind, Cell.ofInstance_ok hkind hcell⟩

end Component

namespace Cell.StandsFor

variable {i : Instance} {kind : Primitive} {c : Cell}

/-- Cells are registers as their primitives are. -/
theorem isRegister_eq [Machine] (h : StandsFor i kind c) : c.isRegister = kind.isRegister := by
  cases h with
  | memory hkind => cases kind <;> first | rfl | cases hkind
  | _ => rfl

/-- Cells are memories as their primitives are. -/
theorem isMemory_eq [Machine] (h : StandsFor i kind c) : c.isMemory = kind.isMemory := by
  cases h with
  | memory hkind => exact hkind.symm
  | _ => rfl

/-- Cells hold state as their primitives do. -/
theorem isSequential_eq [Machine]
    (h : StandsFor i kind c) : c.isSequential = kind.isSequential := by
  cases h with
  | memory hkind => simp [isSequential, Primitive.isSequential, hkind]
  | _ => rfl

/-- What a register cell says about its instance. -/
theorem of_register [Machine] {init : Bool} {enable : Option Wire} {data : Wire}
    (h : StandsFor i kind (.register init enable data)) :
    kind.isRegister = true ∧ registerInit i = .ok init := by
  cases h with
  | delay _ hinit => exact ⟨rfl, hinit⟩
  | delayEn _ hinit => exact ⟨rfl, hinit⟩

/-- What a memory cell says about its instance. -/
theorem of_memory [Machine] {shape : MemoryShape} {ports : List MemoryPort}
    (h : StandsFor i kind (.memory shape ports)) :
    kind.isMemory = true ∧ MemoryShape.ofInstance i = .ok shape ∧
      i.inputs.length = shape.inputCount ∧ ports = shape.splitPorts i := by
  cases h with
  | memory hkind hshape hlength => exact ⟨hkind, hshape, hlength, rfl⟩

/-- A combinational cell reads exactly the inputs of its instance, in declared order. -/
theorem reads_eq [Machine] (h : StandsFor i kind c) (hc : kind.isSequential = false) :
    c.reads = i.inputs := by
  cases h with
  | delay => cases hc
  | delayEn => cases hc
  | memory hkind => simp [Primitive.isSequential, hkind] at hc
  | _ => simp_all [reads]

end Cell.StandsFor

/-! ### Shapes of memories -/

namespace MemoryShape

/-- A shape has the widths that it was made from. -/
theorem make_ok [Machine] {id : Index} {dataWidth addressWidth : Int} {init : List Int}
    {dual : Bool} {shape : MemoryShape} (h : make id dataWidth addressWidth init dual = .ok shape) :
    dataWidth = shape.dataWidth ∧ addressWidth = shape.addressWidth ∧ shape.dual = dual := by
  unfold make at h
  split at h
  · cases h
  split at h
  · cases h
  obtain ⟨-, -, h⟩ := bind_eq_ok.1 h
  split at h
  · cases h
  obtain ⟨-, -, h⟩ := bind_eq_ok.1 h
  split at h
  · cases h
  · cases h
    exact ⟨(Int.toNat_of_nonneg (by omega)).symm, (Int.toNat_of_nonneg (by omega)).symm, rfl⟩

/-- The shape of a memory, read backwards: its widths are those of the parameters, and it is dual as
its primitive is. -/
theorem ofInstance_ok [Machine] {i : Instance} {shape : MemoryShape}
    (h : ofInstance i = .ok shape) :
    ∃ kind, i.primitive = .ok kind ∧ kind.isMemory = true ∧
      i.intParam "dwidth" = .ok shape.dataWidth ∧ i.intParam "awidth" = .ok shape.addressWidth ∧
      shape.dual = (kind == .dualRam) := by
  unfold ofInstance at h
  obtain ⟨kind, hkind, h⟩ := bind_eq_ok.1 h
  cases hmemory : kind.isMemory with
  | false => simp [hmemory, bind, Except.bind, throw, throwThe, MonadExceptOf.throw] at h
  | true =>
    simp only [hmemory, Bool.not_true, Bool.false_eq_true, if_false] at h
    obtain ⟨-, -, h⟩ := bind_eq_ok.1 h
    obtain ⟨dataWidth, hdata, h⟩ := bind_eq_ok.1 h
    obtain ⟨addressWidth, haddress, h⟩ := bind_eq_ok.1 h
    obtain ⟨init, hmake⟩ : ∃ init,
        make i.id dataWidth addressWidth init (kind == .dualRam) = .ok shape := by
      split at h
      · obtain ⟨init, -, hmake⟩ := bind_eq_ok.1 h
        exact ⟨init, hmake⟩
      · exact ⟨[], h⟩
    obtain ⟨rfl, rfl, hdual⟩ := make_ok hmake
    exact ⟨kind, hkind, hmemory, hdata, haddress, hdual⟩

end MemoryShape

/-- A memory that passes its check has the cell of a memory. -/
theorem Component.exists_ports [Machine] {i : Instance} {c : Component}
    (h : Component.ofInstance i = .ok c) (hmemory : c.kind.isMemory = true) :
    ∃ shape ports, c.cell = .memory shape ports ∧ MemoryShape.ofInstance i = .ok shape ∧
      i.inputs.length = shape.inputCount ∧ ports = shape.splitPorts i := by
  obtain ⟨-, -, hfor, -⟩ := Component.ofInstance_ok h
  rw [← hfor.isMemory_eq] at hmemory
  cases hcell : c.cell with
  | memory shape ports =>
    rw [hcell] at hfor
    exact ⟨shape, ports, rfl, hfor.of_memory.2⟩
  | _ =>
    rw [hcell] at hmemory
    cases hmemory

/-! ### Ports of a memory -/

private theorem getElem?_slice {α : Type} {width group b : Nat} {xs : List α} {x : α}
    (h : (slice width group xs)[b]? = some x) : b < width ∧ xs[group * width + b]? = some x := by
  have hb : b < width := by
    have hlt := (List.getElem?_eq_some_iff.1 h).1
    rw [slice, List.length_take] at hlt
    omega
  rw [slice, List.getElem?_take_of_lt hb, List.getElem?_drop] at h
  exact ⟨hb, h⟩

namespace MemoryShape

/-- The wires of a port, by their places among the inputs and outputs of an instance. -/
structure IsPort (shape : MemoryShape) (i : Instance) (k : Nat) (port : MemoryPort) : Prop where
  enable : i.inputs[k]? = some port.enable
  length_data : port.data.length = shape.dataWidth
  data : ∀ b w, port.data[b]? = some w →
    i.inputs[shape.portCount + k * shape.dataWidth + b]? = some w
  length_address : port.address.length = shape.addressWidth
  address : ∀ b w, port.address[b]? = some w →
    i.inputs[shape.portCount + shape.portCount * shape.dataWidth + k * shape.addressWidth + b]? =
      some w
  length_output : port.output.length = shape.dataWidth
  output : ∀ b w, port.output[b]? = some w → w = i.wire (k * shape.dataWidth + b)

variable {shape : MemoryShape} {i : Instance}

/-- The inputs of a memory are its write enables, its data wires and its address wires. -/
theorem length_inputs (h : i.inputs.length = shape.inputCount) :
    i.inputs.length = shape.portCount + shape.portCount * shape.dataWidth +
      shape.portCount * shape.addressWidth := by
  rw [h, inputCount, Nat.mul_add, Nat.mul_add, Nat.mul_one]

private theorem portCount_le_length (h : i.inputs.length = shape.inputCount) :
    shape.portCount ≤ i.inputs.length := by
  rw [length_inputs h]
  omega

theorem length_splitPorts (h : i.inputs.length = shape.inputCount) :
    (shape.splitPorts i).length = shape.portCount := by
  rw [splitPorts, List.length_mapIdx, List.length_take]
  exact Nat.min_eq_left (portCount_le_length h)

/-- The inputs and outputs of an instance are split as the layout of its ports says. -/
theorem isPort_of_getElem? (h : i.inputs.length = shape.inputCount) {k : Nat} {port : MemoryPort}
    (hport : (shape.splitPorts i)[k]? = some port) :
    k < shape.portCount ∧ shape.IsPort i k port := by
  have hk : k < shape.portCount := by
    rw [← length_splitPorts h]
    exact (List.getElem?_eq_some_iff.1 hport).1
  have hdata : (k + 1) * shape.dataWidth ≤ shape.portCount * shape.dataWidth :=
    Nat.mul_le_mul_right _ hk
  have haddress : (k + 1) * shape.addressWidth ≤ shape.portCount * shape.addressWidth :=
    Nat.mul_le_mul_right _ hk
  have hlength := length_inputs h
  rw [splitPorts, List.getElem?_mapIdx, Option.map_eq_some_iff] at hport
  obtain ⟨enable, henable, rfl⟩ := hport
  rw [List.getElem?_take_of_lt hk] at henable
  refine ⟨hk, henable, ?_, ?_, ?_, ?_, ?_, ?_⟩
  · refine length_slice ?_
    rw [List.length_take, List.length_drop]
    omega
  · intro b w hw
    obtain ⟨hb, hw⟩ := getElem?_slice hw
    have hplace : k * shape.dataWidth + b < shape.portCount * shape.dataWidth := by
      rw [Nat.succ_mul] at hdata
      omega
    rwa [List.getElem?_take_of_lt hplace, List.getElem?_drop, ← Nat.add_assoc] at hw
  · refine length_slice ?_
    rw [List.length_drop]
    omega
  · intro b w hw
    obtain ⟨-, hw⟩ := getElem?_slice hw
    rwa [List.getElem?_drop, ← Nat.add_assoc] at hw
  · refine length_slice ?_
    rwa [List.length_map, List.length_range, outputCount]
  · intro b w hw
    obtain ⟨-, hw⟩ := getElem?_slice hw
    rw [List.getElem?_map, Option.map_eq_some_iff] at hw
    obtain ⟨port, hrange, rfl⟩ := hw
    obtain ⟨_, hrange⟩ := List.getElem?_eq_some_iff.1 hrange
    rw [← hrange, List.getElem_range]

end MemoryShape

end Latchwork
