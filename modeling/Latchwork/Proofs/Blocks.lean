import Latchwork.Proofs.Engine
import Latchwork.Proofs.Loading

/-!
# The blocks of a compiled procedure

A turn of a compiled procedure has three blocks of statements. On a lawful engine, the block that
settles the wires leaves the solution of the cycle in the store, the block that computes the next
values reads only that solution and the state, and the block that commits them leaves the outputs of
registers and memories as they are after the cycle.

Each block is a run over components. Its invariant has two parts: what the components that are done
have left, and that all other names stand for what they stood for.
-/

namespace Latchwork

open Outcome

/-! ### Compiled netlists -/

/-- A numbered netlist with a schedule, an exit flag and input names that a dialect accepts. -/
structure Netlist.Compiled [Machine] (n : Netlist) (d : Dialect) (exit : Wire)
    (s : Schedule) : Prop where
  schedule : n.schedule = .ok s
  numbered : n.IsNumbered
  names : ∀ c ∈ s.components, ∀ name, c.cell = .input name → isGeneratedName name = false
  exit : ∃ o ∈ n.outputs, o.2 = exit
  limit : d = .c → n.outputs.length ≤ outputLimit

private theorem Dialect.checkName_ok {d : Dialect} {name : Text} {id : Option Value}
    (h : d.checkName name id = .ok ()) : isGeneratedName name = false := by
  unfold checkName at h
  split at h
  · split at h <;> cases h
  · split at h
    · cases h
    · split at h
      · cases h
      · next hgenerated => exact Bool.eq_false_iff.2 hgenerated

private theorem Schedule.checkInputNames_ok {s : Schedule} {d : Dialect}
    (h : s.checkInputNames d = .ok ()) {c : Component} (hc : c ∈ s.components) {name : Text}
    (hname : c.cell = .input name) : isGeneratedName name = false := by
  have hcheck := forM_eq_ok.1 h c hc
  have hsome : c.inputName? = some name := by rw [Component.inputName?, hname]
  rw [hsome] at hcheck
  exact Dialect.checkName_ok hcheck

private theorem Netlist.output_ok {n : Netlist} {done : Value} {w : Wire}
    (h : n.output done = .ok w) :
    ∃ o ∈ n.outputs, o.2 = w := by
  unfold output at h
  split at h
  · next hfound =>
    cases h
    obtain ⟨name, -, hname⟩ := Option.bind_eq_some_iff.1 hfound
    obtain ⟨o, ho, rfl⟩ := Option.map_eq_some_iff.1 hname
    exact ⟨o, List.mem_of_find?_eq_some ho, rfl⟩
  · cases h

/-- The steps of compilation, each of which succeeded. -/
theorem Netlist.compile_eq_ok [Machine] {n : Netlist} {d : Dialect} {name done : Value}
    {p : Procedure} (h : n.compile d name done = .ok p) :
    ∃ s exit title, n.schedule = .ok s ∧ n.output done = .ok exit ∧
      s.checkInputNames d = .ok () ∧ (d = .c → n.outputs.length ≤ outputLimit) ∧
      n.checkNumerals s = .ok () ∧ p = s.procedure d title n.outputs exit := by
  unfold compile at h
  obtain ⟨s, hs, h⟩ := bind_eq_ok.1 h
  obtain ⟨exit, hexit, h⟩ := bind_eq_ok.1 h
  obtain ⟨title, -, h⟩ := bind_eq_ok.1 h
  obtain ⟨⟨⟩, hnames, h⟩ := bind_eq_ok.1 h
  dsimp only at h
  split at h
  · cases h
  next hlimit =>
  obtain ⟨⟨⟩, hnumerals, h⟩ := bind_eq_ok.1 h
  cases h
  refine ⟨s, exit, title, hs, hexit, hnames, fun hd => ?_, hnumerals, rfl⟩
  have hle : ¬outputLimit < n.outputs.length := fun hlt => hlimit ⟨hd, hlt⟩
  omega

/-- The procedure of a numbered netlist. -/
theorem Netlist.compile_ok [Machine] {n : Netlist} {d : Dialect} {name done : Value} {p : Procedure}
    (h : n.compile d name done = .ok p) (hn : n.IsNumbered) :
    ∃ s exit title, n.output done = .ok exit ∧ n.Compiled d exit s ∧
      p = s.procedure d title n.outputs exit := by
  obtain ⟨s, exit, title, hs, hexit, hnames, hlimit, -, hp⟩ := compile_eq_ok h
  refine ⟨s, exit, title, hexit, ⟨hs, hn, ?_, output_ok hexit, hlimit⟩, hp⟩
  intro c hc input hinput
  exact Schedule.checkInputNames_ok hnames hc hinput

namespace Netlist.Compiled

variable {n : Netlist} {d : Dialect} {exit : Wire} {s : Schedule}

theorem exists_component [Machine] (h : n.Compiled d exit s) {i : Instance} (hi : i ∈ n.instances) :
    ∃ c ∈ s.components, Component.ofInstance i = .ok c :=
  exists_result (schedule_ok h.schedule).2.1 hi

theorem exists_instance [Machine] (h : n.Compiled d exit s) {c : Component}
    (hc : c ∈ s.components) :
    ∃ i ∈ n.instances, Component.ofInstance i = .ok c :=
  exists_element (schedule_ok h.schedule).2.1 hc

/-- Ids of components are numbers. -/
theorem isNumber [Machine] (h : n.Compiled d exit s) {c : Component} (hc : c ∈ s.components) :
    c.id.IsNumber := by
  obtain ⟨i, hi, hic⟩ := h.exists_instance hc
  rw [(Component.ofInstance_ok hic).1]
  exact (h.numbered.instances i hi).1

/-- The names of the outputs of components are proper. -/
theorem wire_isProper [Machine] (h : n.Compiled d exit s) {c : Component} (hc : c ∈ s.components)
    (port : Nat) : (Name.wire (c.wire port)).IsProper :=
  ⟨h.isNumber hc, rfl⟩

/-- Components are told apart by their ids. -/
theorem eq_of_id_eq [Machine] (h : n.Compiled d exit s) {b c : Component} (hb : b ∈ s.components)
    (hc : c ∈ s.components) (hid : b.id = c.id) : b = c := by
  have hd := nodup_numbers (schedule_ok h.schedule).2.1
  exact Schedule.eq_of_id_eq hd hb hc (by rw [hid])

theorem mem_combinational [Machine] (h : n.Compiled d exit s) {c : Component} :
    c ∈ s.combinational ↔ c ∈ s.components ∧ c.cell.isSequential = false := by
  obtain ⟨-, hcs, hs⟩ := schedule_ok h.schedule
  rw [(Schedule.ofComponents_ok (nodup_numbers hcs) hs).2.1.mem_iff]
  simp

theorem mem_sequential {c : Component} :
    c ∈ s.sequential ↔ c ∈ s.components ∧ c.cell.isSequential = true := by
  simp only [Schedule.sequential, Schedule.registers, Schedule.memories, List.mem_append,
    List.mem_filter]
  cases c.cell <;> simp [Cell.isRegister, Cell.isMemory, Cell.isSequential]

/-- No component that holds state comes twice. -/
theorem nodup_sequential [Machine] (h : n.Compiled d exit s) : s.sequential.Nodup := by
  have hd : s.components.Nodup := .of_map _ (nodup_numbers (schedule_ok h.schedule).2.1)
  refine List.nodup_append.2 ⟨hd.filter _, hd.filter _, ?_⟩
  rintro b hb c hc rfl
  have hregister := (List.mem_filter.1 hb).2
  have hmemory := (List.mem_filter.1 hc).2
  cases hcell : b.cell <;> simp [hcell, Cell.isRegister, Cell.isMemory] at hregister hmemory

/-- A numbered wire of the netlist is an output of a component. -/
theorem wire_eq [Machine] (h : n.Compiled d exit s) {w : Wire} (hw : w.IsNumbered)
    (hwire : n.HasWire w.driver.value w.port.value) :
    ∃ i ∈ n.instances, ∃ c ∈ s.components, Component.ofInstance i = .ok c ∧
      w = c.wire w.port.value ∧ w.port.value < c.cell.outputCount := by
  obtain ⟨i, hi, hid, hport⟩ := hwire
  obtain ⟨c, hc, hic⟩ := h.exists_component hi
  obtain ⟨hcid, -, -, hcount⟩ := Component.ofInstance_ok hic
  refine ⟨i, hi, c, hc, hic, ?_, by omega⟩
  refine hw.eq ⟨h.isNumber hc, rfl⟩ ?_ rfl
  rw [Component.wire, hcid, hid]

/-- Input wires are numbered and there. -/
theorem input_hasWire [Machine] (h : n.Compiled d exit s) {i : Instance} (hi : i ∈ n.instances)
    {w : Wire} (hw : w ∈ i.inputs) : w.IsNumbered ∧ n.HasWire w.driver.value w.port.value :=
  ⟨(h.numbered.instances i hi).2 w hw, (check_eq_ok.1 (schedule_ok h.schedule).1).2.1 i hi w hw⟩

/-- Output wires are numbered and there. -/
theorem output_hasWire [Machine] (h : n.Compiled d exit s) {o : Text × Wire} (ho : o ∈ n.outputs) :
    o.2.IsNumbered ∧ n.HasWire o.2.driver.value o.2.port.value :=
  ⟨h.numbered.outputs o ho, (check_eq_ok.1 (schedule_ok h.schedule).1).2.2 o ho⟩

end Netlist.Compiled

/-! ### What a store shows -/

namespace Store

/-- The store shows a state of the netlist: the external inputs, the outputs of registers and
memories, and the words of memories. -/
structure Shows [Machine] (t : Store) (n : Netlist) (names : List Text) (input : Text → Int)
    (σ : State) :
    Prop where
  inputs : ∀ name ∈ names, t.get (.given name) = .ok (.number (input name))
  bits : ∀ i ∈ n.instances, i.isCombinational = false → ∀ port < i.outputCount.value,
    t.get (.wire (i.wire port)) = .ok (.ofBit (σ.bits i.id.value port))
  tables : ∀ i ∈ n.instances, ∀ shape, MemoryShape.ofInstance i = .ok shape →
    t.HoldsTable (.storage i.id) (σ.words i.id.value)

/-- The store shows the bits on all wires of the netlist. -/
def ShowsWires (t : Store) (n : Netlist) (v : Valuation) : Prop :=
  ∀ w : Wire, w.IsNumbered → n.HasWire w.driver.value w.port.value →
    t.get (.wire w) = .ok (.ofBit (v.at w))

/-- A table stays where its name is left alone. -/
theorem HoldsTable.congr {s t : Store} {m : Name} {words : List Nat} (h : s.HoldsTable m words)
    (hget : t.get m = s.get m) : t.HoldsTable m words := by
  obtain ⟨cells, hcells, hwords⟩ := h
  exact ⟨cells, by rw [hget, hcells], hwords⟩

end Store

section Blocks

variable {n : Netlist} {d : Dialect} {exit : Wire} {s : Schedule} {E : Engine} {fits : Nat → Prop}
  {accepts : Int → Prop} {input : Text → Int} {σ : State} {v : Valuation}

/-! ### The block that settles the wires -/

/-- The first components of the schedule have settled, and nothing else has changed. -/
structure Settled (before : List Component) (v : Valuation) (start t : Store) : Prop where
  shown : ∀ c ∈ before, t.get (.wire (c.wire 0)) = .ok (.ofBit (v c.id.value 0))
  frame : ∀ m : Name, m.IsProper → (∀ c ∈ before, m ≠ .wire (c.wire 0)) → t.get m = start.get m

/-- A wire shows its bit once its driver has settled, or at once if its driver holds state. -/
theorem Settled.wire [Machine] (h : n.Compiled d exit s) (hv : n.Settles input σ v)
    {start t : Store} (hstart : start.Shows n s.inputs input σ) {before : List Component}
    (hbefore : ∀ b ∈ before, b ∈ s.combinational) (ht : Settled before v start t) {w : Wire}
    (hw : w.IsNumbered) (hwire : n.HasWire w.driver.value w.port.value)
    (hdone : ∀ b ∈ s.combinational, b.id.value = w.driver.value → b ∈ before) :
    t.get (.wire w) = .ok (.ofBit (v.at w)) := by
  obtain ⟨j, hj, b, hb, hjb, heq, hport⟩ := h.wire_eq hw hwire
  have hbid : b.id = j.id := (Component.ofInstance_ok hjb).1
  have hdriver : b.id.value = w.driver.value :=
    (congrArg (fun w : Wire => w.driver.value) heq).symm
  cases hbseq : b.cell.isSequential with
  | false =>
    have hzero : w.port.value = 0 := by
      rw [Cell.outputCount_eq_one hbseq] at hport
      omega
    rw [Valuation.at, heq, hzero]
    exact ht.shown b (hdone b (h.mem_combinational.2 ⟨hb, hbseq⟩) hdriver)
  | true =>
    have hcj : j.isCombinational = false := by rw [Instance.isCombinational_eq hjb, hbseq]; rfl
    have hport' : w.port.value < j.outputCount.value := by
      rw [(Component.ofInstance_ok hjb).2.2.2]
      exact hport
    rw [ht.frame (.wire w) hw, Valuation.at, ← hdriver, hbid, hv.state j hj hcj _ hport',
      ← hstart.bits j hj hcj _ hport']
    · rw [heq, Component.wire, hbid]
      rfl
    · -- no component that settles drives the wire
      rintro c hc hname
      obtain ⟨hc, hcseq⟩ := h.mem_combinational.1 (hbefore c hc)
      have hid : b.id = c.id := by
        rw [heq] at hname
        exact congrArg Wire.driver (Name.wire.inj hname)
      rw [h.eq_of_id_eq hb hc hid, hcseq] at hbseq
      cases hbseq

/-- What a component of the schedule reads is there when its turn comes. -/
theorem Settled.reads [Machine] (h : n.Compiled d exit s) (hv : n.Settles input σ v)
    {start t : Store}
    (hstart : start.Shows n s.inputs input σ) {before after : List Component} {c : Component}
    (hsplit : s.combinational = before ++ c :: after) (ht : Settled before v start t) :
    ∀ w ∈ c.cell.reads, t.get (.wire w) = .ok (.ofBit (v.at w)) := by
  intro w hw
  have hmem : ∀ b ∈ before ++ c :: after, b ∈ s.combinational := fun b hb => hsplit ▸ hb
  obtain ⟨hc, hseq⟩ := h.mem_combinational.1 (hmem c (by simp))
  obtain ⟨i, hi, hic⟩ := h.exists_instance hc
  have hci : i.isCombinational = true := by rw [Instance.isCombinational_eq hic, hseq]; rfl
  obtain ⟨hnumbered, hwire⟩ := h.input_hasWire hi (Instance.reads_eq hic hci ▸ hw)
  refine ht.wire h hv hstart (fun b hb => hmem b (List.mem_append_left _ hb)) hnumbered hwire
    fun b hb hid => ?_
  obtain ⟨hb, hbseq⟩ := h.mem_combinational.1 hb
  obtain ⟨-, hcs, hs⟩ := Netlist.schedule_ok h.schedule
  exact (Schedule.ofComponents_ok (Netlist.nodup_numbers hcs) hs).2.2 before c after hsplit w hw b
    hb hbseq hid

/-- Once all components have settled, all wires show their bits. -/
theorem Settled.showsWires [Machine] (h : n.Compiled d exit s) (hv : n.Settles input σ v)
    {start t : Store}
    (hstart : start.Shows n s.inputs input σ) (ht : Settled s.combinational v start t) :
    t.ShowsWires n v := fun _ hw hwire =>
  ht.wire h hv hstart (fun _ hb => hb) hw hwire fun _ hb _ => hb

/-- The block leaves the solution of the cycle on all wires. -/
theorem settle_block [Machine] (hE : E.Lawful d fits accepts) (h : n.Compiled d exit s)
    (hv : n.Settles input σ v) {start : Store} (hstart : start.Shows n s.inputs input σ)
    (haccepts : ∀ name ∈ s.inputs, accepts (input name)) :
    ∃ t, (s.combinational.flatMap Component.settle).foldlM E.run start = .ok t ∧
      Settled s.combinational v start t := by
  rw [foldlM_flatMap]
  refine foldlM_ok (P := fun before => Settled before v start) ⟨by simp, fun m _ _ => rfl⟩
    fun before c after t hsplit ht => ?_
  have hmem : ∀ b ∈ before ++ c :: after, b ∈ s.components ∧ b.cell.isSequential = false :=
    fun b hb => h.mem_combinational.1 (hsplit ▸ hb)
  obtain ⟨hc, hseq⟩ := hmem c (by simp)
  obtain ⟨i, hi, hic⟩ := h.exists_instance hc
  have hci : i.isCombinational = true := by rw [Instance.isCombinational_eq hic, hseq]; rfl
  have hcid : c.id = i.id := (Component.ofInstance_ok hic).1
  have hdrives : c.cell.drives? input v = some (v c.id.value 0) := by
    rw [← Instance.drives?_eq hic, hv.gates i hi hci, hcid]
  have hinput : ∀ name, c.cell = .input name →
      t.get (.given name) = .ok (.number (input name)) ∧ accepts (input name) := by
    intro name hname
    have hmem : name ∈ s.inputs := by
      refine List.mem_eraseDups.2 (List.mem_filterMap.2 ⟨c, hc, ?_⟩)
      rw [Component.inputName?, hname]
    refine ⟨?_, haccepts name hmem⟩
    rw [ht.frame (.given name) (h.names c hc name hname) (by simp), hstart.inputs name hmem]
  refine ⟨_, hE.settle (ht.reads h hv hstart hsplit) hinput hdrives, fun b hb => ?_,
    fun m hm hother => ?_⟩
  · by_cases hbc : b = c
    · rw [hbc, Store.get_set_self]
    · have hb : b ∈ before := by simpa [hbc] using hb
      have hbn := (hmem b (List.mem_append_left _ hb)).1
      rw [Store.get_set_of_isProper _ (h.wire_isProper hbn 0) (h.wire_isProper hc 0),
        ht.shown b hb]
      intro hname
      exact hbc (h.eq_of_id_eq hbn hc (congrArg Wire.driver (Name.wire.inj hname)))
  · rw [Store.get_set_of_isProper _ hm (h.wire_isProper hc 0) (hother c (by simp))]
    exact ht.frame m hm fun b hb => hother b (by simp [hb])

/-! ### The block that computes the next values -/

private theorem Store.ShowsWires.congr {t u : Store} (ht : t.ShowsWires n v)
    (hget : ∀ w : Wire, w.IsNumbered → u.get (.wire w) = t.get (.wire w)) : u.ShowsWires n v := by
  intro w hw hwire
  rw [hget w hw, ht w hw hwire]

private theorem Store.ShowsWires.inputWire [Machine] {t : Store} (ht : t.ShowsWires n v)
    (h : n.Compiled d exit s)
    {i : Instance} (hi : i ∈ n.instances) {k : Nat} {w : Wire} (hw : i.inputs[k]? = some w) :
    t.get (.wire w) = .ok (.ofBit (i.inputBit v k)) := by
  obtain ⟨hnumbered, hwire⟩ := h.input_hasWire hi (List.mem_of_getElem? hw)
  rw [ht w hnumbered hwire, Instance.inputBit, hw, Option.any_some]

/-- The words of address and data of the first ports are set, and nothing else has changed. -/
structure Latched (shape : MemoryShape) (i : Instance) (v : Valuation) (t : Store) (count : Nat)
    (u : Store) : Prop where
  address : ∀ k < count, u.get (.address i.id k) = .ok (.ofWord (shape.access i v k).address)
  data : ∀ k < count, u.get (.data i.id k) = .ok (.ofWord (shape.access i v k).data)
  frame : ∀ m : Name, m.IsProper → (∀ k, m ≠ .address i.id k) → (∀ k, m ≠ .data i.id k) →
    u.get m = t.get m

/-- The first ports have written, and nothing else has changed. -/
structure Written (shape : MemoryShape) (i : Instance) (v : Valuation) (words : List Nat)
    (t : Store) (count : Nat) (u : Store) : Prop where
  storage : u.HoldsTable (.storage i.id) (shape.written i v words count)
  frame : ∀ m : Name, m.IsProper → m ≠ .storage i.id → u.get m = t.get m

/-- The first ports have read, and nothing else has changed. -/
structure ReadOut (shape : MemoryShape) (i : Instance) (v : Valuation) (words : List Nat)
    (t : Store) (count : Nat) (u : Store) : Prop where
  word : ∀ k < count, u.get (.read i.id k) = .ok (.ofWord (shape.readWord i v words k))
  frame : ∀ m : Name, m.IsProper → (∀ k, m ≠ .read i.id k) → u.get m = t.get m

variable {i : Instance} {shape : MemoryShape} {words : List Nat}

/-- Every port sets its words of address and data. -/
theorem words_block [Machine] (hE : E.Lawful d fits accepts) (h : n.Compiled d exit s)
    (hi : i ∈ n.instances) (hlength : i.inputs.length = shape.inputCount)
    (hdata : fits shape.dataWidth) (haddress : fits shape.addressWidth) {t : Store}
    (ht : t.ShowsWires n v) :
    ∃ u, ((shape.splitPorts i).mapIdx (Component.portWords d i.id)).flatten.foldlM E.run t = .ok u ∧
      Latched shape i v t shape.portCount u := by
  have hid : i.id.IsNumber := (h.numbered.instances i hi).1
  rw [foldlM_flatten, ← MemoryShape.length_splitPorts hlength]
  refine foldlM_mapIdx_ok (P := Latched shape i v t) ⟨by simp, by simp, fun _ _ _ _ => rfl⟩
    fun k port u hport hu => ?_
  obtain ⟨-, hport⟩ := MemoryShape.isPort_of_getElem? hlength hport
  -- the words are set one after the other, and neither of them touches a wire
  have hwires : u.ShowsWires n v := ht.congr fun w hw => hu.frame (.wire w) hw (by simp) (by simp)
  have hrunAddress : E.run u (.bindWord (.address i.id k) (.word d (port.address.map .wire))) =
      .ok (u.set (.address i.id k) (.ofWord (weigh port.address.length fun b => i.inputBit v
        (shape.portCount + shape.portCount * shape.dataWidth + k * shape.addressWidth + b)))) :=
    hE.word (by rwa [hport.length_address]) fun b w hw =>
      hwires.inputWire h hi (hport.address b w hw)
  rw [hport.length_address] at hrunAddress
  have hwires' : (u.set (.address i.id k) (.ofWord (shape.access i v k).address)).ShowsWires n v :=
    hwires.congr fun w hw => Store.get_set_of_isProper _ hw hid (by simp)
  have hrunData : E.run (u.set (.address i.id k) (.ofWord (shape.access i v k).address))
      (.bindWord (.data i.id k) (.word d (port.data.map .wire))) =
      .ok ((u.set (.address i.id k) (.ofWord (shape.access i v k).address)).set (.data i.id k)
        (.ofWord (weigh port.data.length fun b =>
          i.inputBit v (shape.portCount + k * shape.dataWidth + b)))) :=
    hE.word (by rwa [hport.length_data]) fun b w hw => hwires'.inputWire h hi (hport.data b w hw)
  rw [hport.length_data] at hrunData
  have hrun : (Component.portWords d i.id k port).foldlM E.run u = .ok
      ((u.set (.address i.id k) (.ofWord (shape.access i v k).address)).set (.data i.id k)
        (.ofWord (shape.access i v k).data)) := by
    rw [Component.portWords, List.foldlM_cons]
    refine bind_eq_ok.2 ⟨_, hrunAddress, ?_⟩
    rw [List.foldlM_cons]
    exact bind_eq_ok.2 ⟨_, hrunData, rfl⟩
  have haddressName : ∀ j, (Name.address i.id j).IsProper := fun _ => hid
  have hdataName : ∀ j, (Name.data i.id j).IsProper := fun _ => hid
  refine ⟨_, hrun, fun j hj => ?_, fun j hj => ?_, fun m hm hnoAddress hnoData => ?_⟩
  · rw [Store.get_set_of_isProper _ (haddressName j) (hdataName k) (by simp)]
    by_cases hjk : j = k
    · rw [hjk]
      exact Store.get_set_self ..
    · rw [Store.get_set_of_isProper _ (haddressName j) (haddressName k) (by simp [hjk]),
        hu.address j (by omega)]
  · by_cases hjk : j = k
    · rw [hjk]
      exact Store.get_set_self ..
    · rw [Store.get_set_of_isProper _ (hdataName j) (hdataName k) (by simp [hjk]),
        Store.get_set_of_isProper _ (hdataName j) (haddressName k) (by simp), hu.data j (by omega)]
  · rw [Store.get_set_of_isProper _ hm (hdataName k) (hnoData k),
      Store.get_set_of_isProper _ hm (haddressName k) (hnoAddress k),
      hu.frame m hm hnoAddress hnoData]

/-- Every port writes, in order. -/
theorem writes_block [Machine] (hE : E.Lawful d fits accepts) (h : n.Compiled d exit s)
    (hi : i ∈ n.instances) (hlength : i.inputs.length = shape.inputCount)
    (hwords : shape.Holds words) {t u : Store} (ht : t.ShowsWires n v)
    (hstorage : t.HoldsTable (.storage i.id) words) (hu : Latched shape i v t shape.portCount u) :
    ∃ u', ((shape.splitPorts i).mapIdx (Component.portWrite i.id)).foldlM E.run u = .ok u' ∧
      Written shape i v words u shape.portCount u' := by
  have hid : i.id.IsNumber := (h.numbered.instances i hi).1
  have hstart : u.HoldsTable (.storage i.id) words :=
    hstorage.congr (hu.frame (.storage i.id) hid (by simp) (by simp))
  rw [← MemoryShape.length_splitPorts hlength]
  refine foldlM_mapIdx_ok (P := Written shape i v words u) ⟨hstart, fun _ _ _ => rfl⟩
    fun k port u' hport hu' => ?_
  obtain ⟨hk, hport⟩ := MemoryShape.isPort_of_getElem? hlength hport
  have hwires : u'.ShowsWires n v := ht.congr fun w hw => by
    rw [hu'.frame (.wire w) hw (by simp), hu.frame (.wire w) hw (by simp) (by simp)]
  have hsize := (hwords.written i v k).length_eq
  obtain ⟨cells, hcells, hcontents⟩ := hu'.storage
  have hlt : (shape.access i v k).address < (shape.written i v words k).length := by
    rw [hsize]
    exact shape.address_lt i v k
  refine ⟨_, hE.write (hwires.inputWire h hi hport.enable)
    (by rw [hu'.frame (.data i.id k) hid (by simp), hu.data k hk])
    (by rw [hu'.frame (.address i.id k) hid (by simp), hu.address k hk]) hcells hlt, ?_, ?_⟩
  · rw [MemoryShape.written, Access.write]
    change Store.HoldsTable (if (shape.access i v k).enable then _ else _) _ _
    split
    · exact Store.holdsTable_setCell hcontents hlt _
    · exact hu'.storage
  · intro m hm hne
    rw [← hu'.frame m hm hne]
    split
    · exact Store.get_set_of_isProper _ hm hid hne
    · rfl

/-- Every port reads what is there after all writes. -/
theorem reads_block [Machine] (hE : E.Lawful d fits accepts) (h : n.Compiled d exit s)
    (hi : i ∈ n.instances) (hlength : i.inputs.length = shape.inputCount)
    (hdata : fits shape.dataWidth) (hwords : shape.Holds words) {t u u' : Store}
    (hu : Latched shape i v t shape.portCount u)
    (hu' : Written shape i v words u shape.portCount u') :
    ∃ w, ((shape.splitPorts i).mapIdx fun k _ => Component.portRead i.id k).foldlM E.run u' =
        .ok w ∧
      ReadOut shape i v words u' shape.portCount w := by
  have hid : i.id.IsNumber := (h.numbered.instances i hi).1
  have hreadName : ∀ j, (Name.read i.id j).IsProper := fun _ => hid
  rw [← MemoryShape.length_splitPorts hlength]
  refine foldlM_mapIdx_ok (P := ReadOut shape i v words u') ⟨by simp, fun _ _ _ => rfl⟩
    fun k port w hport hw => ?_
  obtain ⟨hk, -⟩ := MemoryShape.isPort_of_getElem? hlength hport
  have hholds := hwords.written i v shape.portCount
  obtain ⟨cells, hcells, hcontents⟩ := hu'.storage
  have hlt : (shape.access i v k).address <
      (shape.written i v words shape.portCount).length := by
    rw [hholds.length_eq]
    exact shape.address_lt i v k
  refine ⟨_, hE.read
    (by rw [hw.frame (.address i.id k) hid (by simp), hu'.frame (.address i.id k) hid (by simp),
      hu.address k hk])
    (by rw [hw.frame (.storage i.id) hid (by simp), hcells]) hlt (hcontents _) hdata
    (hholds.getD_lt _), fun j hj => ?_, fun m hm hne => ?_⟩
  · by_cases hjk : j = k
    · rw [hjk]
      exact Store.get_set_self ..
    · rw [Store.get_set_of_isProper _ (hreadName j) (hreadName k) (by simp [hjk]),
        hw.word j (by omega)]
  · rw [Store.get_set_of_isProper _ hm (hreadName k) (hne k), hw.frame m hm hne]

/-- The id of the component whose next state a name holds. -/
def Name.holder? : Name → Option Index
  | .next id => some id
  | .storage id => some id
  | .address id _ => some id
  | .data id _ => some id
  | .read id _ => some id
  | _ => none

/-- The store holds the next state of a component: the bit of a register, or the words of a memory
and the word that each port reads. -/
def Component.Computed (c : Component) (σ' : State) (u : Store) : Prop :=
  match c.cell with
  | .register .. => u.get (.next c.id) = .ok (.ofBit (σ'.bits c.id.value 0))
  | .memory shape _ => u.HoldsTable (.storage c.id) (σ'.words c.id.value) ∧
      ∀ k < shape.portCount, ∃ word < 2 ^ shape.dataWidth,
        u.get (.read c.id k) = .ok (.ofWord word) ∧
        ∀ b < shape.dataWidth, σ'.bits c.id.value (k * shape.dataWidth + b) = word.testBit b
  | _ => True

/-- A next state stays where the names that hold it are left alone. -/
theorem Component.Computed.congr {c : Component} {σ' : State} {u u' : Store}
    (h : c.Computed σ' u) (hid : c.id.IsNumber)
    (hget : ∀ m : Name, m.IsProper → m.holder? = some c.id → u'.get m = u.get m) :
    c.Computed σ' u' := by
  unfold Computed at h ⊢
  split
  · next hcell =>
    rw [hcell] at h
    exact (hget (.next c.id) hid rfl).trans h
  · next shape ports hcell =>
    rw [hcell] at h
    obtain ⟨htable, hreads⟩ := h
    refine ⟨htable.congr (hget (.storage c.id) hid rfl), fun k hk => ?_⟩
    obtain ⟨word, hlt, hread, hbits⟩ := hreads k hk
    exact ⟨word, hlt, (hget (.read c.id k) hid rfl).trans hread, hbits⟩
  · trivial

private theorem Instance.nextBit_memory [Machine] {kind : Primitive}
    (hkind : i.primitive = .ok kind)
    (hmemory : kind.isMemory = true) (hshape : MemoryShape.ofInstance i = .ok shape) (σ : State)
    (v : Valuation) (port : Nat) :
    i.nextBit σ v port = (shape.readWord i v (σ.words i.id.value)
      (port / shape.dataWidth)).testBit (port % shape.dataWidth) := by
  rw [nextBit, hkind]
  cases kind with
  | ram | dualRam => simp only [hshape]
  | _ => cases hmemory

/-- A register computes its next bit. -/
theorem next_register [Machine] (hE : E.Lawful d fits accepts) (h : n.Compiled d exit s)
    (hv : n.Settles input σ v) (hi : i ∈ n.instances) {c : Component}
    (hic : Component.ofInstance i = .ok c) (hregister : c.cell.isRegister = true) {t : Store}
    (ht : t.ShowsWires n v) :
    (c.next d).foldlM E.run t =
      .ok (t.set (.next c.id) (.ofBit ((n.step σ v).bits c.id.value 0))) := by
  obtain ⟨hcid, hkind, hfor, hcount⟩ := Component.ofInstance_ok hic
  have hci : i.isCombinational = false := by
    rw [Instance.isCombinational_eq hic]
    cases hcell : c.cell <;> simp_all [Cell.isRegister, Cell.isSequential]
  rw [hcid, Netlist.step_bits hi, Instance.nextBit, hkind, Component.next]
  generalize c.kind = kind at hfor ⊢
  generalize hcell : c.cell = cell at hfor hregister hcount ⊢
  cases hfor with
  | delay hinputs =>
    dsimp only
    rw [foldlM_singleton, hcid]
    exact hE.follow (ht.inputWire h hi (by rw [hinputs]; rfl))
  | delayEn hinputs =>
    dsimp only
    have hport : 0 < i.outputCount.value := by rw [hcount]; exact Nat.one_pos
    -- what is kept is the bit of this cycle, which is the state
    have hold : t.get (.wire (c.wire 0)) = .ok (.ofBit (σ.bits i.id.value 0)) := by
      rw [← hv.state i hi hci 0 hport, Component.wire, hcid]
      exact ht _ ⟨(h.numbered.instances i hi).1, rfl⟩ ⟨i, hi, rfl, hport⟩
    rw [foldlM_singleton, hcid]
    exact hE.choose (ht.inputWire h hi (by rw [hinputs]; rfl))
      (ht.inputWire h hi (by rw [hinputs]; rfl)) hold
  | memory => cases hregister
  | _ => cases hregister

/-- A memory writes and reads in all its ports. -/
theorem next_memory [Machine] (hE : E.Lawful d fits accepts) (h : n.Compiled d exit s)
    (hi : i ∈ n.instances) {c : Component} (hic : Component.ofInstance i = .ok c)
    {ports : List MemoryPort} (hcell : c.cell = .memory shape ports)
    (hsized : n.Sized σ)
    (hfits : ∀ shape, MemoryShape.ofInstance i = .ok shape →
      fits shape.dataWidth ∧ fits shape.addressWidth)
    {t : Store} (ht : t.ShowsWires n v)
    (hstorage : t.HoldsTable (.storage c.id) (σ.words c.id.value)) :
    ∃ u, (c.next d).foldlM E.run t = .ok u ∧ c.Computed (n.step σ v) u ∧
      ∀ m : Name, m.IsProper → m.holder? ≠ some c.id → u.get m = t.get m := by
  obtain ⟨hcid, hkind, hfor, -⟩ := Component.ofInstance_ok hic
  rw [hcell] at hfor
  obtain ⟨hmemory, hshape, hlength, rfl⟩ := hfor.of_memory
  rw [hcid] at hstorage
  obtain ⟨hdata, haddress⟩ := hfits shape hshape
  have hwords := hsized i hi shape hshape
  obtain ⟨u₁, hrun₁, hlatched⟩ := words_block hE h hi hlength hdata haddress ht
  obtain ⟨u₂, hrun₂, hwritten⟩ := writes_block hE h hi hlength hwords ht hstorage hlatched
  obtain ⟨u₃, hrun₃, hread⟩ := reads_block hE h hi hlength hdata hwords hlatched hwritten
  have hid : i.id.IsNumber := (h.numbered.instances i hi).1
  refine ⟨u₃, ?_, ?_, fun m hm hother => ?_⟩
  · rw [Component.next, hcell, hcid]
    dsimp only
    rw [List.foldlM_append, List.foldlM_append]
    exact bind_eq_ok.2 ⟨u₂, bind_eq_ok.2 ⟨u₁, hrun₁, hrun₂⟩, hrun₃⟩
  · rw [Component.Computed, hcell, hcid]
    refine ⟨?_, fun k hk => ⟨_, (hwords.written i v _).getD_lt _, hread.word k hk, fun b hb => ?_⟩⟩
    · rw [Netlist.step_words hi hshape]
      exact hwritten.storage.congr (hread.frame (.storage i.id) hid (by simp))
    · have hdiv : (k * shape.dataWidth + b) / shape.dataWidth = k := by
        rw [Nat.add_comm, Nat.add_mul_div_right _ _ shape.dataWidth_pos, Nat.div_eq_of_lt hb,
          Nat.zero_add]
      have hmod : (k * shape.dataWidth + b) % shape.dataWidth = b := by
        rw [Nat.add_comm, Nat.add_mul_mod_self_right, Nat.mod_eq_of_lt hb]
      rw [Netlist.step_bits hi, Instance.nextBit_memory hkind hmemory hshape, hdiv, hmod]
      rfl
  · -- a name that the memory does not hold is none of those that the three parts set
    rw [hcid] at hother
    have hne : ∀ m' : Name, m'.holder? = some i.id → m ≠ m' := by
      rintro m' hm' rfl
      exact hother hm'
    rw [hread.frame m hm fun k => hne _ rfl, hwritten.frame m hm (hne _ rfl),
      hlatched.frame m hm (fun k => hne _ rfl) fun k => hne _ rfl]

/-- The next states of the first components are computed, and nothing else has changed. -/
structure Prepared (before : List Component) (σ' : State) (t u : Store) : Prop where
  computed : ∀ c ∈ before, c.Computed σ' u
  frame : ∀ m : Name, m.IsProper → (∀ c ∈ before, m.holder? ≠ some c.id) → u.get m = t.get m

/-- One component computes its next state. -/
theorem next_component [Machine] (hE : E.Lawful d fits accepts) (h : n.Compiled d exit s)
    (hv : n.Settles input σ v) (hsized : n.Sized σ) (hi : i ∈ n.instances) {c : Component}
    (hic : Component.ofInstance i = .ok c) (hseq : c.cell.isSequential = true)
    (hfits : ∀ shape, MemoryShape.ofInstance i = .ok shape →
      fits shape.dataWidth ∧ fits shape.addressWidth)
    {t : Store} (ht : t.ShowsWires n v)
    (hstorage : ∀ shape, MemoryShape.ofInstance i = .ok shape →
      t.HoldsTable (.storage i.id) (σ.words i.id.value)) :
    ∃ u, (c.next d).foldlM E.run t = .ok u ∧ c.Computed (n.step σ v) u ∧
      ∀ m : Name, m.IsProper → m.holder? ≠ some c.id → u.get m = t.get m := by
  obtain ⟨hcid, -, hfor, -⟩ := Component.ofInstance_ok hic
  have hid : c.id.IsNumber := hcid ▸ (h.numbered.instances i hi).1
  cases hcell : c.cell with
  | register init enable data =>
    refine ⟨_, next_register hE h hv hi hic (by rw [hcell]; rfl) ht, ?_, fun m hm hother => ?_⟩
    · rw [Component.Computed, hcell]
      exact Store.get_set_self ..
    · refine Store.get_set_of_isProper _ hm (n := .next c.id) hid ?_
      rintro rfl
      exact hother rfl
  | memory shape ports =>
    refine next_memory hE h hi hic hcell hsized hfits ht ?_
    rw [hcell] at hfor
    rw [hcid]
    exact hstorage shape hfor.of_memory.2.1
  | _ =>
    rw [hcell] at hseq
    cases hseq

/-- The block computes the next state of every component that holds state. -/
theorem next_block [Machine] (hE : E.Lawful d fits accepts) (h : n.Compiled d exit s)
    (hv : n.Settles input σ v) (hsized : n.Sized σ)
    (hfits : ∀ i ∈ n.instances, ∀ shape, MemoryShape.ofInstance i = .ok shape →
      fits shape.dataWidth ∧ fits shape.addressWidth)
    {t : Store} (ht : t.ShowsWires n v)
    (hstorage : ∀ i ∈ n.instances, ∀ shape, MemoryShape.ofInstance i = .ok shape →
      t.HoldsTable (.storage i.id) (σ.words i.id.value)) :
    ∃ u, (s.sequential.flatMap (Component.next d)).foldlM E.run t = .ok u ∧
      Prepared s.sequential (n.step σ v) t u := by
  rw [foldlM_flatMap]
  refine foldlM_ok (P := fun before => Prepared before (n.step σ v) t)
    ⟨by simp, fun _ _ _ => rfl⟩ fun before c after u hsplit hu => ?_
  have hmem : c ∈ s.sequential := by rw [hsplit]; simp
  obtain ⟨hc, hseq⟩ := Netlist.Compiled.mem_sequential.1 hmem
  obtain ⟨i, hi, hic⟩ := h.exists_instance hc
  have hcid : c.id = i.id := (Component.ofInstance_ok hic).1
  have hbefore : ∀ b ∈ before, b ∈ s.components ∧ b.id ≠ c.id := by
    intro b hb
    have hbc := (Netlist.Compiled.mem_sequential.1 (show b ∈ s.sequential by
      rw [hsplit]; exact List.mem_append_left _ hb)).1
    refine ⟨hbc, fun hid => ?_⟩
    have hnodup := h.nodup_sequential
    rw [hsplit] at hnodup
    exact (List.nodup_append.1 hnodup).2.2 b hb c (.head _) (h.eq_of_id_eq hbc hc hid)
  have hwires : u.ShowsWires n v := ht.congr fun w hw => hu.frame (.wire w) hw fun b _ => by
    simp [Name.holder?]
  have htable : ∀ shape, MemoryShape.ofInstance i = .ok shape →
      u.HoldsTable (.storage i.id) (σ.words i.id.value) := by
    intro shape hshape
    refine (hstorage i hi shape hshape).congr (hu.frame _ (h.numbered.instances i hi).1 ?_)
    intro b hb hholder
    exact (hbefore b hb).2 ((Option.some.inj hholder).symm.trans hcid.symm)
  obtain ⟨u', hrun, hcomputed, hframe⟩ :=
    next_component hE h hv hsized hi hic hseq (hfits i hi) hwires htable
  refine ⟨u', hrun, fun b hb => ?_, fun m hm hother => ?_⟩
  · rcases List.mem_append.1 hb with hb | hb
    · obtain ⟨hbc, hne⟩ := hbefore b hb
      refine (hu.computed b hb).congr (h.isNumber hbc) fun m hm hholder => hframe m hm ?_
      rw [hholder]
      exact fun heq => hne (Option.some.inj heq)
    · rw [List.mem_singleton.1 hb]
      exact hcomputed
  · rw [hframe m hm (hother c (by simp)), hu.frame m hm fun b hb => hother b (by simp [hb])]

/-! ### The block that commits the next values -/

/-- The first outputs of a component are committed, and nothing else has changed. -/
structure Picked (c : Component) (σ' : State) (u : Store) (count : Nat) (w : Store) : Prop where
  shown : ∀ port < count, w.get (.wire (c.wire port)) = .ok (.ofBit (σ'.bits c.id.value port))
  frame : ∀ m : Name, m.IsProper → (∀ port, m ≠ .wire (c.wire port)) → w.get m = u.get m

/-- Committing one more output. -/
theorem Picked.set {c : Component} {σ' : State} {u w : Store} {count : Nat} (hid : c.id.IsNumber)
    (h : Picked c σ' u count w) :
    Picked c σ' u (count + 1)
      (w.set (.wire (c.wire count)) (.ofBit (σ'.bits c.id.value count))) := by
  have hproper : ∀ port, (Name.wire (c.wire port)).IsProper := fun _ => ⟨hid, rfl⟩
  constructor
  · intro port hport
    by_cases hlast : port = count
    · rw [hlast, Store.get_set_self]
    · rw [Store.get_set_of_isProper _ (hproper port) (hproper count), h.shown port (by omega)]
      simpa [Component.wire] using hlast
  · intro m hm hother
    rw [Store.get_set_of_isProper _ hm (hproper count) (hother count), h.frame m hm hother]

/-- A memory commits the words that its ports read, bit by bit. -/
theorem commit_memory (hE : E.Lawful d fits accepts) {c : Component} {σ' : State} {u : Store}
    (hid : c.id.IsNumber) (hcell : c.cell = .memory shape (shape.splitPorts i)) (hcid : c.id = i.id)
    (hlength : i.inputs.length = shape.inputCount) (hdata : fits shape.dataWidth)
    (hu : c.Computed σ' u) :
    ∃ w, c.commit.foldlM E.run u = .ok w ∧ Picked c σ' u shape.outputCount w := by
  rw [Component.Computed, hcell] at hu
  obtain ⟨-, hreads⟩ := hu
  rw [Component.commit, hcell]
  dsimp only
  rw [foldlM_flatten, MemoryShape.outputCount, ← MemoryShape.length_splitPorts hlength]
  refine foldlM_mapIdx_ok (P := fun k => Picked c σ' u (k * shape.dataWidth))
    ⟨by simp, fun _ _ _ => rfl⟩ fun k port w hport hw => ?_
  obtain ⟨hk, hport⟩ := MemoryShape.isPort_of_getElem? hlength hport
  obtain ⟨word, hlt, hread, hbits⟩ := hreads k hk
  -- the bits of one port follow those of the ports before it
  rw [Nat.succ_mul, ← hport.length_output, Component.portCommit]
  rw [← hport.length_output] at hw
  refine foldlM_mapIdx_ok (P := fun b => Picked c σ' u (k * port.output.length + b)) hw
    fun b out w' hout hw' => ?_
  have hb : b < shape.dataWidth := by
    rw [← hport.length_output]
    exact (List.getElem?_eq_some_iff.1 hout).1
  have hwire : out = c.wire (k * shape.dataWidth + b) := by
    rw [hport.output b out hout, Component.wire, hcid]
    rfl
  have hread' : w'.get (.read c.id k) = .ok (.ofWord word) := by
    rw [hw'.frame (.read c.id k) hid (by simp), hread]
  rw [hport.length_output] at hw' ⊢
  refine ⟨_, hE.pick hread' hdata hlt hb, ?_⟩
  rw [hwire, ← hbits b hb]
  exact hw'.set hid

/-- One component commits its outputs. -/
theorem commit_component [Machine] (hE : E.Lawful d fits accepts) (h : n.Compiled d exit s)
    (hfits : ∀ i ∈ n.instances, ∀ shape, MemoryShape.ofInstance i = .ok shape →
      fits shape.dataWidth ∧ fits shape.addressWidth)
    {c : Component} (hc : c ∈ s.sequential) {σ' : State} {u : Store} (hu : c.Computed σ' u) :
    ∃ w, c.commit.foldlM E.run u = .ok w ∧ Picked c σ' u c.cell.outputCount w := by
  obtain ⟨hc, hseq⟩ := Netlist.Compiled.mem_sequential.1 hc
  obtain ⟨i, hi, hic⟩ := h.exists_instance hc
  obtain ⟨hcid, -, hfor, -⟩ := Component.ofInstance_ok hic
  have hid := h.isNumber hc
  cases hcell : c.cell with
  | register init enable data =>
    rw [Component.Computed, hcell] at hu
    have hnone : Picked c σ' u 0 u := ⟨by simp, fun _ _ _ => rfl⟩
    refine ⟨_, ?_, hnone.set hid⟩
    rw [Component.commit, hcell]
    dsimp only
    rw [foldlM_singleton]
    exact hE.commit hu
  | memory shape ports =>
    rw [hcell] at hfor
    obtain ⟨-, hshape, hlength, rfl⟩ := hfor.of_memory
    exact commit_memory hE hid hcell hcid hlength (hfits i hi shape hshape).1 hu
  | _ =>
    rw [hcell] at hseq
    cases hseq

/-- The outputs of the first components are committed, and nothing else has changed. -/
structure Committed (before : List Component) (σ' : State) (u w : Store) : Prop where
  shown : ∀ c ∈ before, ∀ port < c.cell.outputCount,
    w.get (.wire (c.wire port)) = .ok (.ofBit (σ'.bits c.id.value port))
  frame : ∀ m : Name, m.IsProper → (∀ c ∈ before, ∀ port, m ≠ .wire (c.wire port)) →
    w.get m = u.get m

/-- The block commits the outputs of every component that holds state. -/
theorem commit_block [Machine] (hE : E.Lawful d fits accepts) (h : n.Compiled d exit s)
    (hfits : ∀ i ∈ n.instances, ∀ shape, MemoryShape.ofInstance i = .ok shape →
      fits shape.dataWidth ∧ fits shape.addressWidth)
    {σ' : State} {t u : Store} (hu : Prepared s.sequential σ' t u) :
    ∃ w, (s.sequential.flatMap Component.commit).foldlM E.run u = .ok w ∧
      Committed s.sequential σ' u w := by
  rw [foldlM_flatMap]
  refine foldlM_ok (P := fun before => Committed before σ' u)
    ⟨by simp, fun _ _ _ => rfl⟩ fun before c after w hsplit hw => ?_
  have hmem : ∀ b ∈ before ++ c :: after, b ∈ s.sequential := fun b hb => hsplit ▸ hb
  have hcomponent : ∀ b ∈ before ++ c :: after, b ∈ s.components := fun b hb =>
    (Netlist.Compiled.mem_sequential.1 (hmem b hb)).1
  have hc := hcomponent c (by simp)
  -- the next state is not held by wires, so no commit touches it
  have hcomputed : c.Computed σ' w :=
    (hu.computed c (hmem c (by simp))).congr (h.isNumber hc) fun m hm hholder =>
      hw.frame m hm fun b _ port hname => by
        rw [hname] at hholder
        cases hholder
  obtain ⟨w', hrun, hpicked⟩ := commit_component hE h hfits (hmem c (by simp)) hcomputed
  refine ⟨w', hrun, fun b hb port hport => ?_, fun m hm hother => ?_⟩
  · by_cases hbc : b = c
    · rw [hbc] at hport ⊢
      exact hpicked.shown port hport
    · have hb : b ∈ before := by simpa [hbc] using hb
      have hbn := hcomponent b (List.mem_append_left _ hb)
      rw [hpicked.frame _ (h.wire_isProper hbn port), hw.shown b hb port hport]
      intro k hname
      exact hbc (h.eq_of_id_eq hbn hc (congrArg Wire.driver (Name.wire.inj hname)))
  · rw [hpicked.frame m hm (hother c (by simp)),
      hw.frame m hm fun b hb => hother b (by simp [hb])]

end Blocks

end Latchwork
