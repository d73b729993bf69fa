import Latchwork.Proofs.Schedule
import Latchwork.Proofs.Writing

/-!
# The synchronous semantics of netlists

What a netlist means, apart from any procedure. Its state is a bit for every output of a register or
a memory and the words of every memory. In each cycle the bits of all wires solve the equations of
the gates; then the run returns the packed outputs, or all registers and memories step at once.

A netlist that has a schedule has exactly one solution in each cycle, so it has exactly one run. The
words of a memory keep their number and their width along it.
-/

namespace Latchwork

open Outcome

/-! ### Weighted bits -/

/-- The number with these binary digits: bit `k` weighs two to the power of `k`. -/
def weigh (width : Nat) (bit : Nat → Bool) : Nat :=
  ∑ k ∈ Finset.range width, (bit k).toNat * 2 ^ k

theorem weigh_zero (bit : Nat → Bool) : weigh 0 bit = 0 := by
  simp [weigh]

theorem weigh_succ (width : Nat) (bit : Nat → Bool) :
    weigh (width + 1) bit = weigh width bit + (bit width).toNat * 2 ^ width := by
  rw [weigh, Finset.sum_range_succ, ← weigh]

/-- A number of so many bits is below the power of two. -/
theorem weigh_lt (width : Nat) (bit : Nat → Bool) : weigh width bit < 2 ^ width := by
  induction width with
  | zero => simp [weigh_zero]
  | succ width ih =>
    rw [weigh_succ, Nat.pow_succ]
    have := Nat.mul_le_mul_right (2 ^ width) (Bool.toNat_le (bit width))
    omega

/-! ### Cycles -/

/-- The bit on every wire, by the id of its driver and its port. -/
def Valuation : Type := Nat → Nat → Bool

/-- The bit on a wire. -/
def Valuation.at (v : Valuation) (w : Wire) : Bool := v w.driver.value w.port.value

/-- The state of a netlist: the output bits of registers and memories, and the words of memories,
all by id. -/
structure State where
  bits : Valuation
  words : Nat → List Nat

/-- What a gate drives, given the bits on its inputs in declared order. -/
def Primitive.truth? : Primitive → List Bool → Option Bool
  | .low, [] => some false
  | .high, [] => some true
  | .inv, [a] => some !a
  | .and2, [a, b] => some (a && b)
  | .or2, [a, b] => some (a || b)
  | .xor2, [a, b] => some (a ^^ b)
  | .xorcy, [a, b] => some (a ^^ b)
  | .eq2, [a, b] => some (a == b)
  | .muxcy, [carry, data, select] => some (if select then carry else data)
  | _, _ => none

namespace Instance

/-- What a combinational instance drives: an external input gives its lowest bit, and a gate what
its table says. -/
def drives? (i : Instance) (input : Text → Int) (v : Valuation) : Option Bool :=
  match i.primitive with
  | .ok .name => (i.param? "name").map fun name => input name % 2 == 1
  | .ok kind => kind.truth? (i.inputs.map v.at)
  | .error _ => none

/-- The bit on the input of an instance with a number. -/
def inputBit (i : Instance) (v : Valuation) (k : Nat) : Bool := (i.inputs[k]?).any v.at

end Instance

/-- What one port of a memory does in a cycle. -/
structure Access where
  enable : Bool
  data : Nat
  address : Nat

/-- The words after one port has written, if it is enabled. -/
def Access.write (words : List Nat) (a : Access) : List Nat :=
  if a.enable then words.set a.address a.data else words

namespace MemoryShape

/-- What a port of a memory does. The inputs are the enables of all ports, then their data, then
their addresses. -/
def access (shape : MemoryShape) (i : Instance) (v : Valuation) (port : Nat) : Access where
  enable := i.inputBit v port
  data := weigh shape.dataWidth fun b =>
    i.inputBit v (shape.portCount + port * shape.dataWidth + b)
  address := weigh shape.addressWidth fun b =>
    i.inputBit v (shape.portCount + shape.portCount * shape.dataWidth +
      port * shape.addressWidth + b)

/-- The words after so many ports have written, in order. -/
def written (shape : MemoryShape) (i : Instance) (v : Valuation) (words : List Nat) :
    Nat → List Nat
  | 0 => words
  | port + 1 => (shape.access i v port).write (shape.written i v words port)

/-- The word that a port reads once all ports have written. -/
def readWord (shape : MemoryShape) (i : Instance) (v : Valuation) (words : List Nat)
    (port : Nat) : Nat :=
  (shape.written i v words shape.portCount).getD (shape.access i v port).address 0

end MemoryShape

namespace Instance

/-- The bit of an output before the first cycle: registers have an initial value, the outputs of
memories are clear. -/
def initialBit (i : Instance) : Bool :=
  i.isRegister && match i.intParam "init" with
    | .ok value => value == 1
    | .error _ => false

/-- The words of a memory before the first cycle. -/
def initialWords [Machine] (i : Instance) : List Nat :=
  match MemoryShape.ofInstance i with
  | .ok shape => shape.contents
  | .error _ => []

/-- The bit of an output after a cycle: that of a register from its data input, unless an enable
keeps the old one; that of a memory from the word that its port reads. -/
def nextBit [Machine] (i : Instance) (σ : State) (v : Valuation) (port : Nat) : Bool :=
  match i.primitive with
  | .ok .delay => i.inputBit v 1
  | .ok .delayEn => if i.inputBit v 1 then i.inputBit v 2 else σ.bits i.id.value port
  | _ =>
    match MemoryShape.ofInstance i with
    | .ok shape =>
      (shape.readWord i v (σ.words i.id.value) (port / shape.dataWidth)).testBit
        (port % shape.dataWidth)
    | .error _ => false

/-- The words of a memory after a cycle. -/
def nextWords [Machine] (i : Instance) (σ : State) (v : Valuation) : List Nat :=
  match MemoryShape.ofInstance i with
  | .ok shape => shape.written i v (σ.words i.id.value) shape.portCount
  | .error _ => []

end Instance

namespace Netlist

/-- Does an instance of the netlist drive a wire with this id and port? -/
def HasWire (n : Netlist) (id port : Nat) : Prop :=
  ∃ i ∈ n.instances, i.id.value = id ∧ port < i.outputCount.value

/-- A solution of the equations of a cycle: every gate drives what its table says, registers and
memories show the state, and there is nothing on wires that are not there. -/
structure Settles (n : Netlist) (input : Text → Int) (σ : State) (v : Valuation) : Prop where
  gates : ∀ i ∈ n.instances, i.isCombinational = true → i.drives? input v = some (v i.id.value 0)
  state : ∀ i ∈ n.instances, i.isCombinational = false → ∀ port < i.outputCount.value,
    v i.id.value port = σ.bits i.id.value port
  elsewhere : ∀ id port, ¬n.HasWire id port → v id port = false

/-- The state before the first cycle. -/
def initial [Machine] (n : Netlist) : State where
  bits id _ := (n.find? id).any Instance.initialBit
  words id := ((n.find? id).map Instance.initialWords).getD []

/-- The state after a cycle: all registers and memories step from the bits of that cycle. -/
def step [Machine] (n : Netlist) (σ : State) (v : Valuation) : State where
  bits id port := (n.find? id).any fun i => i.nextBit σ v port
  words id := ((n.find? id).map fun i => i.nextWords σ v).getD []

/-- The named outputs as one number, the first with weight one, the second with weight two and so
on. -/
def packed (n : Netlist) (v : Valuation) : Nat :=
  weigh n.outputs.length fun k => (n.outputs[k]?).any fun o => v.at o.2

end Netlist

/-- Where a run of a netlist is: it has a state for the next cycle, or it has returned. -/
inductive Stage where
  | running (σ : State)
  | returned (result : Nat)

/-- The run of a netlist until a wire is set: where it is after so many cycles. A cycle in which the
wire is set returns and leaves the state alone. -/
inductive Netlist.Reaches [Machine] (n : Netlist) (input : Text → Int) (exit : Wire) :
    Nat → Stage → Prop where
  | start : n.Reaches input exit 0 (.running n.initial)
  | advance {k : Nat} {σ : State} {v : Valuation} (h : n.Reaches input exit k (.running σ))
    (hv : n.Settles input σ v) (hexit : v.at exit = false) :
    n.Reaches input exit (k + 1) (.running (n.step σ v))
  | leave {k : Nat} {σ : State} {v : Valuation} (h : n.Reaches input exit k (.running σ))
    (hv : n.Settles input σ v) (hexit : v.at exit = true) :
    n.Reaches input exit (k + 1) (.returned (n.packed v))
  | rest {k result : Nat} (h : n.Reaches input exit k (.returned result)) :
    n.Reaches input exit (k + 1) (.returned result)

/-! ### Gates as cells -/

/-- The value of a gate of two inputs. -/
def Gate.onBits : Gate → Bool → Bool → Bool
  | .and, a, b => a && b
  | .or, a, b => a || b
  | .xor, a, b => a ^^ b
  | .equal, a, b => a == b

/-- What a combinational cell drives. -/
def Cell.drives? (input : Text → Int) (v : Valuation) : Cell → Option Bool
  | .constant value => some value
  | .inverter a => some !v.at a
  | .gate op a b => some (op.onBits (v.at a) (v.at b))
  | .multiplexer select whenSet whenClear =>
    some (if v.at select then v.at whenSet else v.at whenClear)
  | .input name => some (input name % 2 == 1)
  | _ => none

namespace Instance

variable {i : Instance} {c : Component}

/-- A parameter that was read is there. -/
theorem param?_eq_some {key value : Text} (h : i.param key = .ok value) :
    i.param? key = some value := by
  unfold param at h
  split at h
  · next hparam =>
    cases h
    exact hparam
  · cases h

/-- An instance drives what its cell drives. -/
theorem drives?_eq [Machine] (h : Component.ofInstance i = .ok c) (input : Text → Int)
    (v : Valuation) :
    i.drives? input v = c.cell.drives? input v := by
  obtain ⟨-, hkind, hfor, -⟩ := Component.ofInstance_ok h
  rw [drives?, hkind]
  generalize c.kind = kind at hfor ⊢
  generalize c.cell = cell at hfor ⊢
  cases hfor with
  | name hinputs hname => simp [param?_eq_some hname, Cell.drives?]
  | memory hmemory =>
    cases kind with
    | ram => rfl
    | dualRam => rfl
    | _ => cases hmemory
  | low hinputs | high hinputs | inv hinputs | and2 hinputs | or2 hinputs | xor2 hinputs
  | xorcy hinputs | eq2 hinputs | muxcy hinputs | delay hinputs | delayEn hinputs =>
    simp [hinputs, Primitive.truth?, Cell.drives?, Gate.onBits]

/-- A combinational instance drives something, on a single output. -/
theorem exists_drives? [Machine] (h : Component.ofInstance i = .ok c)
    (hc : i.isCombinational = true) (input : Text → Int) (v : Valuation) :
    (∃ b, i.drives? input v = some b) ∧ i.outputCount.value = 1 := by
  have hs : c.cell.isSequential = false := by simpa [isCombinational_eq h] using hc
  rw [drives?_eq h, (Component.ofInstance_ok h).2.2.2, Cell.outputCount_eq_one hs]
  refine ⟨?_, rfl⟩
  cases hcell : c.cell <;> simp_all [Cell.drives?, Cell.isSequential]

private theorem drives?_congr {input : Text → Int} {v v' : Valuation}
    (h : ∀ w ∈ i.inputs, v.at w = v'.at w) : i.drives? input v = i.drives? input v' := by
  unfold drives?
  rw [List.map_congr_left h]

end Instance

/-! ### One solution in each cycle -/

namespace Valuation

/-- Puts a bit on the first output of an instance. -/
def put (v : Valuation) (id : Nat) (b : Bool) : Valuation := fun id' port =>
  if id' = id ∧ port = 0 then b else v id' port

variable {v : Valuation} {id id' port : Nat} {b : Bool}

private theorem put_self : v.put id b id 0 = b := if_pos ⟨rfl, rfl⟩

private theorem put_of_ne (h : id' ≠ id) :
    v.put id b id' port = v id' port := if_neg fun hand => h hand.1

end Valuation

namespace Netlist

variable {n : Netlist} {s : Schedule}

/-- A wire passes its check if it is there and the place where it is used can be spelled out. -/
theorem checkWire_eq_ok {site : Site} {w : Wire} :
    n.checkWire site w = .ok () ↔
      (∀ k ∈ site.numerals, Numeral.isTooLong k = false) ∧
        n.HasWire w.driver.value w.port.value := by
  constructor
  · intro h
    obtain ⟨spelling, hsite, h⟩ := bind_eq_ok.1 h
    refine ⟨(Numeral.written_eq_ok.1 hsite).1, ?_⟩
    split at h
    · cases h
    · next i hfind =>
      obtain ⟨hi, hid⟩ := find?_eq_some_iff.1 hfind
      split at h
      · next hport => exact ⟨i, hi, hid, hport⟩
      · cases h
  · rintro ⟨hshort, i, hi, hid, hport⟩
    refine bind_eq_ok.2 ⟨site.text, Numeral.written_eq_ok.2 ⟨hshort, rfl⟩, ?_⟩
    simp only [find?_eq_some_iff.2 ⟨hi, hid⟩, if_pos hport]

/-- The inputs of an instance pass their check if they are there, and its id can be spelled out if
it has any. -/
theorem checkInputs_eq_ok {i : Instance} :
    n.checkInputs i = .ok () ↔
      (i.inputs ≠ [] → i.id.IsShort) ∧ ∀ w ∈ i.inputs, n.HasWire w.driver.value w.port.value := by
  have hpass : n.checkInputs i = .ok () ↔
      ∀ w ∈ i.inputs, i.id.IsShort ∧ n.HasWire w.driver.value w.port.value := by
    refine forM_eq_ok.trans ⟨fun h w hw => ?_, fun h => ?_⟩
    · obtain ⟨k, hk⟩ := List.getElem?_of_mem hw
      exact checkWire_eq_ok.1 (h (w, k) (List.mk_mem_zipIdx_iff_getElem?.2 hk))
    · rintro ⟨w, k⟩ hw
      exact checkWire_eq_ok.2 (h w (List.fst_mem_of_mem_zipIdx hw))
  rw [hpass]
  constructor
  · intro h
    refine ⟨fun hne => ?_, fun w hw => (h w hw).2⟩
    obtain ⟨w, hw⟩ := List.exists_mem_of_ne_nil _ hne
    exact (h w hw).1
  · rintro ⟨hshort, hwires⟩ w hw
    exact ⟨hshort (List.ne_nil_of_mem hw), hwires w hw⟩

/-- A netlist passes its check if all its wires are there, and every id of an instance with inputs
can be spelled out. -/
theorem check_eq_ok :
    n.check = .ok () ↔
      (∀ i ∈ n.instances, i.inputs ≠ [] → i.id.IsShort) ∧
        (∀ i ∈ n.instances, ∀ w ∈ i.inputs, n.HasWire w.driver.value w.port.value) ∧
          ∀ o ∈ n.outputs, n.HasWire o.2.driver.value o.2.port.value := by
  unfold check
  rw [bind_eq_ok]
  constructor
  · rintro ⟨⟨⟩, hinputs, houtputs⟩
    have hpassed := fun i hi => checkInputs_eq_ok.1 (forM_eq_ok.1 hinputs i hi)
    refine ⟨fun i hi => (hpassed i hi).1, fun i hi => (hpassed i hi).2, fun o ho => ?_⟩
    exact (checkWire_eq_ok.1 (forM_eq_ok.1 houtputs o ho)).2
  · rintro ⟨hshort, hwires, houtputs⟩
    refine ⟨(), forM_eq_ok.2 fun i hi => ?_, forM_eq_ok.2 fun o ho => ?_⟩
    · exact checkInputs_eq_ok.2 ⟨hshort i hi, hwires i hi⟩
    · exact checkWire_eq_ok.2 ⟨by simp [Site.numerals], houtputs o ho⟩

/-- The numbers of a netlist whose wires are all there can be written if its ids and the numbers of
outputs can. -/
theorem isShort_iff_of_check (h : n.check = .ok ()) :
    n.IsShort ↔ ∀ i ∈ n.instances, i.id.IsShort ∧ i.outputCount.IsShort := by
  obtain ⟨-, hinputs, houtputs⟩ := check_eq_ok.1 h
  constructor
  · intro hshort i hi
    exact ⟨(hshort.instances i hi).id, (hshort.instances i hi).outputCount⟩
  · intro hshort
    have hwire : ∀ w : Wire, n.HasWire w.driver.value w.port.value → w.IsShort := by
      rintro w ⟨i, hi, hid, hport⟩
      exact ⟨(hshort i hi).1.mono hid.ge, (hshort i hi).2.mono hport.le⟩
    refine ⟨fun i hi => ?_, fun o ho => hwire o.2 (houtputs o ho)⟩
    exact ⟨(hshort i hi).1, (hshort i hi).2, fun w hw => hwire w (hinputs i hi w hw)⟩

private theorem driver_cases [Machine] (h : n.schedule = .ok s) {i : Instance}
    (hi : i ∈ n.instances) (hc : i.isCombinational = true) {w : Wire} (hw : w ∈ i.inputs) :
    (∃ j ∈ n.instances, j.isCombinational = false ∧ j.id.value = w.driver.value ∧
        w.port.value < j.outputCount.value) ∨
      ∃ j, n.Reads i j ∧ j.id.value = w.driver.value ∧ w.port.value = 0 := by
  obtain ⟨hcheck, hcs, -⟩ := schedule_ok h
  obtain ⟨j, hj, hid, hport⟩ := (check_eq_ok.1 hcheck).2.1 i hi w hw
  cases hcj : j.isCombinational with
  | false => exact .inl ⟨j, hj, hcj, hid, hport⟩
  | true =>
    obtain ⟨c, -, hjc⟩ := exists_result hcs hj
    rw [(Instance.exists_drives? hjc hcj (fun _ => 0) fun _ _ => false).2] at hport
    exact .inr ⟨j, ⟨hi, hc, hj, hcj, w, hw, hid.symm⟩, hid, by omega⟩

/-- Two solutions of a cycle are equal. -/
theorem Settles.unique [Machine] (h : n.schedule = .ok s) {input : Text → Int} {σ : State}
    {v v' : Valuation} (hv : n.Settles input σ v) (hv' : n.Settles input σ v') : v = v' := by
  obtain ⟨order, -, -, hmem, hordered⟩ := (isScheduledBy_of_schedule h).combinational
  -- along the order, what an instance reads is settled before the instance is
  have hagree : ∀ before after, order = before ++ after →
      ∀ i ∈ before, v i.id.value 0 = v' i.id.value 0 := by
    intro before
    induction before using List.reverseRecOn with
    | nil => simp
    | append_singleton before i ih =>
      intro after hsplit j hj
      rw [List.append_assoc, List.singleton_append] at hsplit
      rcases List.mem_append.1 hj with hj | hj
      · exact ih _ hsplit j hj
      obtain rfl := List.mem_singleton.1 hj
      obtain ⟨hj, hcj⟩ := (hmem j).1 (by rw [hsplit]; simp)
      have hreads : ∀ w ∈ j.inputs, v.at w = v'.at w := by
        intro w hw
        rcases driver_cases h hj hcj hw with ⟨k, hk, hck, hid, hport⟩ | ⟨k, hjk, hid, hport⟩
        · rw [Valuation.at, Valuation.at, ← hid, hv.state k hk hck _ hport,
            hv'.state k hk hck _ hport]
        · rw [Valuation.at, Valuation.at, ← hid, hport]
          exact ih _ hsplit k (hordered before j after hsplit k hjk)
      have hdrives : j.drives? input v = j.drives? input v' := Instance.drives?_congr hreads
      rw [hv.gates j hj hcj, hv'.gates j hj hcj] at hdrives
      exact Option.some.inj hdrives
  funext id port
  by_cases hwire : n.HasWire id port
  · obtain ⟨i, hi, rfl, hport⟩ := hwire
    cases hci : i.isCombinational with
    | false => rw [hv.state i hi hci port hport, hv'.state i hi hci port hport]
    | true =>
      obtain ⟨c, -, hic⟩ := exists_result (schedule_ok h).2.1 hi
      rw [(Instance.exists_drives? hic hci input v).2] at hport
      obtain rfl : port = 0 := by omega
      exact hagree order [] (by simp) i ((hmem i).2 ⟨hi, hci⟩)
  · rw [hv.elsewhere id port hwire, hv'.elsewhere id port hwire]

/-- A solution of the equations of some instances only: these drive what their tables say, registers
and memories show the state, and there is nothing on wires that are not there. -/
structure SettlesFirst (n : Netlist) (input : Text → Int) (σ : State) (before : List Instance)
    (v : Valuation) : Prop where
  gates : ∀ i ∈ before, i.drives? input v = some (v i.id.value 0)
  state : ∀ i ∈ n.instances, i.isCombinational = false → ∀ port < i.outputCount.value,
    v i.id.value port = σ.bits i.id.value port
  elsewhere : ∀ id port, ¬n.HasWire id port → v id port = false

private theorem exists_settlesFirst_nil (n : Netlist) (input : Text → Int) (σ : State) :
    ∃ v, n.SettlesFirst input σ [] v := by
  classical
  refine ⟨fun id port => if n.HasWire id port then σ.bits id port else false, by simp, ?_, ?_⟩
  · intro i hi _ port hport
    exact if_pos ⟨i, hi, rfl, hport⟩
  · intro id port hwire
    exact if_neg hwire

/-- One more equation is solved by the bit that its instance drives, if no instance so far reads
it. -/
theorem SettlesFirst.concat {input : Text → Int} {σ : State} {before : List Instance}
    {v : Valuation} (hv : n.SettlesFirst input σ before v) {i : Instance} (hi : i ∈ n.instances)
    (hci : i.isCombinational = true) (hcount : i.outputCount.value = 1) {b : Bool}
    (hb : i.drives? input v = some b) (hbefore : ∀ j ∈ before, j.id.value ≠ i.id.value)
    (hreads : ∀ j ∈ before ++ [i], ∀ w ∈ j.inputs, w.driver.value ≠ i.id.value) :
    n.SettlesFirst input σ (before ++ [i]) (v.put i.id.value b) := by
  constructor
  · intro j hj
    have hsame : ∀ w ∈ j.inputs, (v.put i.id.value b).at w = v.at w := fun w hw =>
      Valuation.put_of_ne (hreads j hj w hw)
    rw [Instance.drives?_congr hsame]
    rcases List.mem_append.1 hj with hj | hj
    · rw [Valuation.put_of_ne (hbefore j hj), hv.gates j hj]
    · rw [List.mem_singleton.1 hj, Valuation.put_self, hb]
  · intro j hj hcj port hport
    rw [Valuation.put_of_ne, hv.state j hj hcj port hport]
    intro hid
    rw [eq_of_id_eq hj hi hid, hci] at hcj
    cases hcj
  · intro id port hwire
    have hne : ¬(id = i.id.value ∧ port = 0) := by
      rintro ⟨rfl, rfl⟩
      exact hwire ⟨i, hi, rfl, by omega⟩
    rw [Valuation.put, if_neg hne, hv.elsewhere id port hwire]

/-- In an order of the combinational instances, no instance reads itself or a later one. -/
theorem driver_ne_of_split [Machine] (h : n.schedule = .ok s) {order before after : List Instance}
    {i : Instance} (hmem : ∀ i, i ∈ order ↔ i ∈ n.instances ∧ i.isCombinational = true)
    (hordered : ∀ before i after, order = before ++ i :: after → ∀ j, n.Reads i j → j ∈ before)
    (hsplit : order = before ++ i :: after) (hbefore : ∀ j ∈ before, j.id.value ≠ i.id.value)
    {j : Instance} (hj : j ∈ before ++ [i]) {w : Wire} (hw : w ∈ j.inputs) :
    w.driver.value ≠ i.id.value := by
  intro hid
  obtain ⟨hi, hci⟩ := (hmem i).1 (by rw [hsplit]; simp)
  have hjorder : j ∈ order := by
    rw [hsplit]
    simp only [List.mem_append, List.mem_singleton] at hj
    simpa [← or_assoc] using Or.inl hj
  obtain ⟨hjn, hcj⟩ := (hmem j).1 hjorder
  rcases driver_cases h hjn hcj hw with ⟨k, hk, hck, hkid, -⟩ | ⟨k, hjk, hkid, -⟩
  · rw [eq_of_id_eq hk hi (hkid.trans hid), hci] at hck
    cases hck
  · have hk : k ∈ before := by
      rcases List.mem_append.1 hj with hj | hj
      · obtain ⟨first, rest, rfl⟩ := List.append_of_mem hj
        have hfirst := hordered first j (rest ++ i :: after) (by simp [hsplit]) k hjk
        exact List.mem_append_left _ hfirst
      · rw [List.mem_singleton.1 hj] at hjk
        exact hordered before i after hsplit k hjk
    exact hbefore k hk (hkid.trans hid)

/-- Every cycle has a solution. -/
theorem exists_settles [Machine] (h : n.schedule = .ok s) (input : Text → Int) (σ : State) :
    ∃ v, n.Settles input σ v := by
  obtain ⟨-, hcs, -⟩ := schedule_ok h
  obtain ⟨order, -, hnodup, hmem, hordered⟩ := (isScheduledBy_of_schedule h).combinational
  -- the equations of the first instances of the order are solved one after another
  have hsolve : ∀ before after, order = before ++ after →
      ∃ v, n.SettlesFirst input σ before v := by
    intro before
    induction before using List.reverseRecOn with
    | nil => exact fun _ _ => n.exists_settlesFirst_nil input σ
    | append_singleton before i ih =>
      intro after hsplit
      rw [List.append_assoc, List.singleton_append] at hsplit
      obtain ⟨v, hv⟩ := ih _ hsplit
      obtain ⟨hi, hci⟩ := (hmem i).1 (by rw [hsplit]; simp)
      obtain ⟨c, -, hic⟩ := exists_result hcs hi
      obtain ⟨⟨b, hb⟩, hcount⟩ := Instance.exists_drives? hic hci input v
      have hbefore : ∀ j ∈ before, j.id.value ≠ i.id.value := by
        intro j hj hid
        have hjn := ((hmem j).1 (by rw [hsplit]; simp [hj])).1
        rw [hsplit] at hnodup
        exact (List.nodup_append.1 hnodup).2.2 j hj i (.head _) (eq_of_id_eq hjn hi hid)
      refine ⟨_, hv.concat hi hci hcount hb hbefore fun j hj w hw => ?_⟩
      exact driver_ne_of_split h hmem hordered hsplit hbefore hj hw
  obtain ⟨v, hv⟩ := hsolve order [] (by simp)
  exact ⟨v, fun i hi hci => hv.gates i ((hmem i).2 ⟨hi, hci⟩), hv.state, hv.elsewhere⟩

/-! ### Runs -/

variable {input : Text → Int} {exit : Wire}

/-- A run is in one place only after a number of cycles. -/
theorem Reaches.unique [Machine] (h : n.schedule = .ok s) {k : Nat} {a b : Stage}
    (ha : n.Reaches input exit k a) (hb : n.Reaches input exit k b) : a = b := by
  induction ha generalizing b with
  | start =>
    cases hb
    rfl
  | advance _ hv hexit ih =>
    cases hb with
    | advance hb hv' _ =>
      cases ih hb
      rw [hv.unique h hv']
    | leave hb hv' hexit' =>
      cases ih hb
      rw [hv.unique h hv', hexit'] at hexit
      cases hexit
    | rest hb => cases ih hb
  | leave _ hv hexit ih =>
    cases hb with
    | advance hb hv' hexit' =>
      cases ih hb
      rw [hv.unique h hv', hexit'] at hexit
      cases hexit
    | leave hb hv' _ =>
      cases ih hb
      rw [hv.unique h hv']
    | rest hb => cases ih hb
  | rest _ ih =>
    cases hb with
    | advance hb => cases ih hb
    | leave hb => cases ih hb
    | rest hb => exact ih hb

/-- A run is somewhere after any number of cycles. -/
theorem exists_reaches [Machine] (h : n.schedule = .ok s) (input : Text → Int) (exit : Wire)
    (k : Nat) :
    ∃ stage, n.Reaches input exit k stage := by
  induction k with
  | zero => exact ⟨_, .start⟩
  | succ k ih =>
    obtain ⟨stage, hstage⟩ := ih
    cases stage with
    | returned result => exact ⟨_, .rest hstage⟩
    | running σ =>
      obtain ⟨v, hv⟩ := exists_settles h input σ
      cases hexit : v.at exit with
      | false => exact ⟨_, .advance hstage hv hexit⟩
      | true => exact ⟨_, .leave hstage hv hexit⟩

end Netlist

/-! ### Words keep their number and their width -/

/-- Words as a memory of this shape holds them. -/
structure MemoryShape.Holds (shape : MemoryShape) (words : List Nat) : Prop where
  length_eq : words.length = shape.depth
  lt : ∀ word ∈ words, word < 2 ^ shape.dataWidth

namespace MemoryShape

variable {shape : MemoryShape} {words : List Nat}

theorem holds_contents (shape : MemoryShape) : shape.Holds shape.contents :=
  ⟨shape.length_contents, shape.contents_lt⟩

/-- A port addresses a location of its memory. -/
theorem address_lt (shape : MemoryShape) (i : Instance) (v : Valuation) (port : Nat) :
    (shape.access i v port).address < shape.depth := weigh_lt _ _

private theorem Holds.write (h : shape.Holds words) (i : Instance) (v : Valuation) (port : Nat) :
    shape.Holds ((shape.access i v port).write words) := by
  unfold Access.write
  split
  · refine ⟨by rw [List.length_set, h.length_eq], fun word hword => ?_⟩
    rcases List.mem_or_eq_of_mem_set hword with hword | rfl
    · exact h.lt word hword
    · exact weigh_lt _ _
  · exact h

/-- All ports together leave words that fit. -/
theorem Holds.written (h : shape.Holds words) (i : Instance) (v : Valuation) (count : Nat) :
    shape.Holds (shape.written i v words count) := by
  induction count with
  | zero => exact h
  | succ port ih => exact ih.write i v port

/-- A word at an address fits. -/
theorem Holds.getD_lt (h : shape.Holds words) (k : Nat) : words.getD k 0 < 2 ^ shape.dataWidth := by
  rw [List.getD_eq_getElem?_getD]
  cases hk : words[k]? with
  | none => exact Nat.two_pow_pos _
  | some word => exact h.lt word (List.mem_of_getElem? hk)

end MemoryShape

namespace Netlist

variable {n : Netlist}

/-- A state in which every memory holds words that fit its shape. -/
def Sized [Machine] (n : Netlist) (σ : State) : Prop :=
  ∀ i ∈ n.instances, ∀ shape, MemoryShape.ofInstance i = .ok shape →
    shape.Holds (σ.words i.id.value)

/-- The words of a memory before the first cycle. -/
theorem initial_words [Machine] {i : Instance} (hi : i ∈ n.instances) {shape : MemoryShape}
    (hshape : MemoryShape.ofInstance i = .ok shape) :
    n.initial.words i.id.value = shape.contents := by
  simp [initial, find?_eq_some_iff.2 ⟨hi, rfl⟩, Instance.initialWords, hshape]

/-- The words of a memory after a cycle. -/
theorem step_words [Machine] {i : Instance} (hi : i ∈ n.instances) {shape : MemoryShape}
    (hshape : MemoryShape.ofInstance i = .ok shape) (σ : State) (v : Valuation) :
    (n.step σ v).words i.id.value =
      shape.written i v (σ.words i.id.value) shape.portCount := by
  simp [step, find?_eq_some_iff.2 ⟨hi, rfl⟩, Instance.nextWords, hshape]

/-- The bit of an output after a cycle. -/
theorem step_bits [Machine] {i : Instance} (hi : i ∈ n.instances) (σ : State) (v : Valuation)
    (port : Nat) :
    (n.step σ v).bits i.id.value port = i.nextBit σ v port := by
  simp [step, find?_eq_some_iff.2 ⟨hi, rfl⟩]

/-- The bit of an output before the first cycle. -/
theorem initial_bits [Machine] {i : Instance} (hi : i ∈ n.instances) (port : Nat) :
    n.initial.bits i.id.value port = i.initialBit := by
  simp [initial, find?_eq_some_iff.2 ⟨hi, rfl⟩]

private theorem sized_initial [Machine] (n : Netlist) : n.Sized n.initial := by
  intro i hi shape hshape
  rw [initial_words hi hshape]
  exact shape.holds_contents

private theorem Sized.step [Machine] {σ : State} (h : n.Sized σ) (v : Valuation) : n.Sized
    (n.step σ v) := by
  intro i hi shape hshape
  rw [step_words hi hshape]
  exact (h i hi shape hshape).written i v _

/-- Along a run every memory stays in shape. -/
theorem Reaches.sized [Machine] {input : Text → Int} {exit : Wire} {k : Nat} {stage : Stage}
    (h : n.Reaches input exit k stage) : ∀ σ, stage = .running σ → n.Sized σ := by
  induction h with
  | start =>
    rintro _ ⟨⟩
    exact n.sized_initial
  | advance _ _ _ ih =>
    rintro _ ⟨⟩
    exact (ih _ rfl).step _
  | leave => rintro _ ⟨⟩
  | rest => rintro _ ⟨⟩

end Netlist

end Latchwork
