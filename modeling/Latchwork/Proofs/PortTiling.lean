import Latchwork.Proofs.Component

/-!
# The ports of a memory share out its wires

The inputs of a memory are one list: the write enables of all ports, then their data buses, then
their address buses. Its outputs are another one. A memory that passes its check is split into ports
that hold each of these wires once, and the widths of the buses leave no other way to split it.
-/

namespace Latchwork

private theorem flatMap_slice {α : Type} (width count : Nat) (xs : List α) :
    (List.range count).flatMap (fun k => slice width k xs) = xs.take (count * width) := by
  induction count with
  | zero => simp
  | succ count ih =>
    rw [List.range_succ, List.flatMap_append, ih, List.flatMap_singleton, Nat.succ_mul,
      List.take_add]
    rfl

private theorem map_eq_of_flatMap_eq {α β : Type} {f : α → List β} {width : Nat} {xs ys : List α}
    (hxs : ∀ x ∈ xs, (f x).length = width) (hys : ∀ y ∈ ys, (f y).length = width)
    (hlength : xs.length = ys.length) (h : xs.flatMap f = ys.flatMap f) : xs.map f = ys.map f := by
  induction xs generalizing ys with
  | nil => rw [List.length_eq_zero_iff.1 hlength.symm]
  | cons x xs ih =>
    cases ys with
    | nil => cases hlength
    | cons y ys =>
      simp only [List.forall_mem_cons] at hxs hys
      rw [List.flatMap_cons, List.flatMap_cons] at h
      obtain ⟨hfirst, hrest⟩ := List.append_inj h (hxs.1.trans hys.1.symm)
      rw [List.map_cons, List.map_cons, hfirst, ih hxs.2 hys.2 (Nat.succ.inj hlength) hrest]

attribute [ext] MemoryPort

namespace MemoryShape

variable {s : MemoryShape} {i : Instance}

/-- Do ports of the full widths hold every wire of an instance once? Their write enables, then their
data buses, then their address buses make up the inputs, and their output buses the outputs. -/
structure Tiles (s : MemoryShape) (i : Instance) (ports : List MemoryPort) : Prop where
  length_data : ∀ p ∈ ports, p.data.length = s.dataWidth
  length_address : ∀ p ∈ ports, p.address.length = s.addressWidth
  length_output : ∀ p ∈ ports, p.output.length = s.dataWidth
  inputs : ports.map (·.enable) ++ ports.flatMap (·.data) ++ ports.flatMap (·.address) = i.inputs
  outputs : ports.flatMap (·.output) = i.wires

private theorem buses_of_getElem? {k : Nat} {p : MemoryPort} (h : (s.splitPorts i)[k]? = some p) :
    p.data = slice s.dataWidth k ((i.inputs.drop s.portCount).take (s.portCount * s.dataWidth)) ∧
      p.address = slice s.addressWidth k (i.inputs.drop (s.portCount + s.portCount * s.dataWidth)) ∧
      p.output = slice s.dataWidth k ((List.range s.outputCount).map i.wire) := by
  rw [splitPorts, List.getElem?_mapIdx, Option.map_eq_some_iff] at h
  obtain ⟨enable, -, rfl⟩ := h
  exact ⟨rfl, rfl, rfl⟩

private theorem flatMap_splitPorts (h : i.inputs.length = s.inputCount)
    {bus : MemoryPort → List Wire}
    {width : Nat} {wires : List Wire} (hwires : wires.length = s.portCount * width)
    (hbus : ∀ k p, (s.splitPorts i)[k]? = some p → bus p = slice width k wires) :
    (s.splitPorts i).flatMap bus = wires := by
  have hmap : (s.splitPorts i).map bus =
      (List.range s.portCount).map fun k => slice width k wires := by
    apply List.ext_getElem
    · simp [length_splitPorts h]
    · intro k hk hk'
      rw [List.getElem_map, List.getElem_map, List.getElem_range]
      rw [List.length_map] at hk
      exact hbus k _ (List.getElem?_eq_getElem hk)
  rw [List.flatMap_def, hmap, ← List.flatMap_def, flatMap_slice, ← hwires, List.take_length]

private theorem map_enable_splitPorts : (s.splitPorts i).map
    (·.enable) = i.inputs.take s.portCount := by
  apply List.ext_getElem <;> simp [splitPorts]

/-- The ports of a memory hold each of its wires once. -/
theorem tiles_splitPorts (h : i.inputs.length = s.inputCount)
    (houtputs : i.outputCount.value = s.outputCount) : s.Tiles i (s.splitPorts i) := by
  have hlength := length_inputs h
  have hdata : (s.splitPorts i).flatMap (·.data) =
      (i.inputs.drop s.portCount).take (s.portCount * s.dataWidth) :=
    flatMap_splitPorts h (by rw [List.length_take, List.length_drop]; omega)
      fun k p hk => (buses_of_getElem? hk).1
  have haddress : (s.splitPorts i).flatMap (·.address) =
      i.inputs.drop (s.portCount + s.portCount * s.dataWidth) :=
    flatMap_splitPorts h (by rw [List.length_drop]; omega) fun k p hk => (buses_of_getElem? hk).2.1
  have houtput : (s.splitPorts i).flatMap (·.output) = (List.range s.outputCount).map i.wire :=
    flatMap_splitPorts h (by rw [List.length_map, List.length_range]; rfl)
      fun k p hk => (buses_of_getElem? hk).2.2
  have hport : ∀ p ∈ s.splitPorts i, ∃ k, s.IsPort i k p := by
    intro p hp
    obtain ⟨k, hk⟩ := List.mem_iff_getElem?.1 hp
    exact ⟨k, (isPort_of_getElem? h hk).2⟩
  refine ⟨fun p hp => ?_, fun p hp => ?_, fun p hp => ?_, ?_, ?_⟩
  · exact (hport p hp).choose_spec.length_data
  · exact (hport p hp).choose_spec.length_address
  · exact (hport p hp).choose_spec.length_output
  · rw [map_enable_splitPorts, hdata, haddress, ← List.take_add, List.take_append_drop]
  · rw [houtput, Instance.wires, houtputs]

/-- The widths leave one way to split the wires into a number of ports. -/
theorem Tiles.eq {ports others : List MemoryPort} (h : s.Tiles i ports) (h' : s.Tiles i others)
    (hlength : ports.length = others.length) : ports = others := by
  have hinputs := h.inputs.trans h'.inputs.symm
  have hfirst : (ports.map (·.enable) ++ ports.flatMap (·.data)).length =
      (others.map (·.enable) ++ others.flatMap (·.data)).length := by
    simp only [List.length_append, List.length_map, List.length_flatMap,
      List.map_congr_left h.length_data, List.map_congr_left h'.length_data, List.map_const',
      hlength]
  obtain ⟨hfront, haddress⟩ := List.append_inj hinputs hfirst
  obtain ⟨henables, hdata⟩ := List.append_inj hfront (by simp [hlength])
  replace hdata := map_eq_of_flatMap_eq h.length_data h'.length_data hlength hdata
  replace haddress := map_eq_of_flatMap_eq h.length_address h'.length_address hlength haddress
  have houtput := map_eq_of_flatMap_eq h.length_output h'.length_output hlength
    (h.outputs.trans h'.outputs.symm)
  apply List.ext_getElem hlength
  intro k hk hk'
  have hat : ∀ {β : Type} {f : MemoryPort → β}, ports.map f = others.map f →
      f ports[k] = f others[k] := by
    intro β f hmap
    simpa [hk, hk'] using congrArg (·[k]?) hmap
  exact MemoryPort.ext (hat henables) (hat hdata) (hat haddress) (hat houtput)

private theorem portCount_eq [Machine] {kind : Primitive} (h : ofInstance i = .ok s)
    (hkind : i.primitive = .ok kind) :
    s.portCount = if kind = .dualRam then 2 else 1 := by
  obtain ⟨kind', hkind', -, -, -, hdual⟩ := ofInstance_ok h
  cases hkind.symm.trans hkind'
  simp [portCount, hdual]

/-- The wires of a memory that passes its check are split into ports without loss. It has the one
port of its primitive, or the two, and these are the only ports of the widths that its parameters
give in which every input stands once, write enables before data buses before address buses, and
every output. -/
theorem ports_eq_ok_iff_tiles [Machine] (i : Instance) (c : Component)
    (h : Component.ofInstance i = .ok c) (hmemory : c.kind.isMemory = true) :
    ∃ shape, MemoryShape.ofInstance i = .ok shape ∧
      i.intParam "dwidth" = .ok shape.dataWidth ∧ i.intParam "awidth" = .ok shape.addressWidth ∧
      (∃ ports, shape.ports i = .ok ports) ∧
      ∀ ports, shape.ports i = .ok ports ↔
        ports.length = (if c.kind = .dualRam then 2 else 1) ∧ shape.Tiles i ports := by
  obtain ⟨shape, ports, hcell, hshape, hlength, rfl⟩ := Component.exists_ports h hmemory
  obtain ⟨-, hkind, -, houtputs⟩ := Component.ofInstance_ok h
  obtain ⟨-, -, -, hdata, haddress, -⟩ := ofInstance_ok hshape
  have hsplit : shape.ports i = .ok (shape.splitPorts i) := if_pos hlength
  have hcount : (shape.splitPorts i).length = if c.kind = .dualRam then 2 else 1 := by
    rw [length_splitPorts hlength, portCount_eq hshape hkind]
  have htiles := tiles_splitPorts hlength (houtputs.trans (by rw [hcell]; rfl))
  refine ⟨shape, hshape, hdata, haddress, ⟨_, hsplit⟩, fun ports => ⟨fun hports => ?_, ?_⟩⟩
  · cases hsplit.symm.trans hports
    exact ⟨hcount, htiles⟩
  · rintro ⟨hcount', htiles'⟩
    rw [hsplit, htiles.eq htiles' (hcount.trans hcount'.symm)]

/-- A memory with two ports, two data bits and a single location. -/
def cellPair : Instance :=
  ⟨.flag true, "dualRam", [("dwidth", "2"), ("awidth", "0")],
    [⟨.number 0, .number 0⟩, ⟨.number 0, .number 1⟩, ⟨.number 0, .number 2⟩, ⟨.number 0, .number 3⟩,
      ⟨.number 0, .number 4⟩, ⟨.number 0, .number 5⟩], .number 4⟩

open Desktop in
/-- Its ports have no address wires and share its data and its outputs. -/
theorem cellPair_tiled :
    ∃ c shape, Component.ofInstance cellPair = .ok c ∧ c.kind.isMemory = true ∧
      MemoryShape.ofInstance cellPair = .ok shape ∧ shape.addressWidth = 0 ∧
      shape.Tiles cellPair
        [⟨⟨.number 0, .number 0⟩, [⟨.number 0, .number 2⟩, ⟨.number 0, .number 3⟩], [],
            [⟨.flag true, .number 0⟩, ⟨.flag true, .number 1⟩]⟩,
          ⟨⟨.number 0, .number 1⟩, [⟨.number 0, .number 4⟩, ⟨.number 0, .number 5⟩], [],
            [⟨.flag true, .number 2⟩, ⟨.flag true, .number 3⟩]⟩] := by
  have hread : MemoryShape.ofInstance cellPair =
      .ok ⟨2, 0, [], true, by decide, by decide, by decide⟩ := rfl
  have hcomponent : Component.ofInstance cellPair = .ok ⟨.flag true, .dualRam,
      .memory ⟨2, 0, [], true, by decide, by decide, by decide⟩ (splitPorts
        ⟨2, 0, [], true, by decide, by decide, by decide⟩ cellPair)⟩ := rfl
  obtain ⟨shape, hshape, -, -, -, hports⟩ := ports_eq_ok_iff_tiles cellPair _ hcomponent rfl
  cases hread.symm.trans hshape
  exact ⟨_, _, hcomponent, rfl, hread, rfl, ((hports _).mp rfl).2⟩

end MemoryShape
end Latchwork
