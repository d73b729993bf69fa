import Latchwork.Proofs.Component
import Latchwork.Proofs.TableOrder
import Latchwork.Proofs.Traversal
import Latchwork.Schedule

/-!
# Soundness and completeness of schedules

A netlist whose wires and instances have passed their checks has a schedule exactly if no
combinational instance depends on itself through combinational instances alone. A schedule holds
every combinational instance once, after all combinational instances that it reads, and the
registers and the memories in ascending order.
-/

namespace Latchwork

open Outcome Traversal

/-! ### Orders of components -/

namespace Schedule

variable {components : List Component}

/-- The ids of components, as numbers. -/
def numbers (components : List Component) : List Nat := components.map (·.id.value)

/-- Components with distinct ids are told apart by them. -/
theorem eq_of_id_eq (hd : (numbers components).Nodup) {a b : Component} (ha : a ∈ components)
    (hb : b ∈ components) (h : a.id.value = b.id.value) : a = b :=
  List.inj_on_of_nodup_map hd ha hb h

/-- A component is found under its id, however that is spelled. -/
theorem find?_eq_some_iff (hd : (numbers components).Nodup) {id : Index} {c : Component} :
    find? components id = some c ↔ c ∈ components ∧ c.id.value = id.value := by
  constructor
  · intro h
    exact ⟨List.mem_of_find?_eq_some h, beq_iff_eq.1 (List.find?_some h :)⟩
  · rintro ⟨hc, hid⟩
    cases h : find? components id with
    | none => exact absurd (beq_iff_eq.2 hid) (List.find?_eq_none.1 h c hc)
    | some b =>
      have hb : b.id.value = id.value := beq_iff_eq.1 (List.find?_some h :)
      rw [eq_of_id_eq hd (List.mem_of_find?_eq_some h) hc (hb.trans hid.symm)]

/-- The ids of the combinational components, in ascending order. -/
def roots (components : List Component) : List Index :=
  (components.filter fun c => !c.cell.isSequential).map (·.id)

theorem mem_values_roots {k : Nat} :
    k ∈ values (roots components) ↔
      ∃ c ∈ components, c.cell.isSequential = false ∧ c.id.value = k := by
  simp [values, roots, and_assoc]

/-- The ids of combinational components are the roots, however they are spelled. -/
theorem isCombinational_iff (hd : (numbers components).Nodup) {id : Index} :
    isCombinational components id = true ↔ id.value ∈ values (roots components) := by
  rw [isCombinational, Option.any_eq_true, mem_values_roots]
  simp only [find?_eq_some_iff hd, Bool.not_eq_true']
  constructor
  · rintro ⟨b, ⟨hb, hid⟩, hs⟩
    exact ⟨b, hb, hs, hid⟩
  · rintro ⟨b, hb, hs, hid⟩
    exact ⟨b, ⟨hb, hid⟩, hs⟩

private theorem mem_drivers_iff (hd : (numbers components).Nodup) {c : Component}
    (hc : c ∈ components) {id q : Index} (hid : c.id.value = id.value) :
    q ∈ drivers components id ↔
      (∃ w ∈ c.cell.reads, w.driver = q) ∧ q.value ∈ values (roots components) := by
  have hfind : find? components id = some c := (find?_eq_some_iff hd).2 ⟨hc, hid⟩
  simp only [drivers, hfind, List.mem_filter, List.mem_map, isCombinational_iff hd]

/-- Components with distinct ids form a graph. -/
theorem isGraph (hd : (numbers components).Nodup) :
    IsGraph (drivers components) (roots components) where
  respects a b h := by simp only [drivers, find?, h]
  closed a q hq := by
    cases hf : find? components a with
    | none => simp [drivers, hf] at hq
    | some c =>
      obtain ⟨hc, hid⟩ := (find?_eq_some_iff hd).1 hf
      exact ((mem_drivers_iff hd hc hid).1 hq).2
  nodup := by
    rw [values, roots, List.map_map]
    exact hd.sublist (List.filter_sublist.map _)

/-- Every id of an order is found among the components. -/
theorem numbers_filterMap_find? (hd : (numbers components).Nodup) {ids : List Index}
    (h : ∀ id ∈ ids, id.value ∈ values (roots components)) :
    numbers (ids.filterMap (find? components)) = values ids := by
  induction ids with
  | nil => rfl
  | cons id rest ih =>
    obtain ⟨c, hc, -, hid⟩ := mem_values_roots.1 (h id (.head _))
    have hfind : find? components id = some c := (find?_eq_some_iff hd).2 ⟨hc, hid⟩
    rw [List.filterMap_cons_some hfind, values_cons, ← ih fun q hq => h q (.tail _ hq), ← hid]
    rfl

private theorem mem_filterMap_find? (hd : (numbers components).Nodup) {ids : List Index}
    (hperm : (values ids).Perm (values (roots components))) {c : Component} :
    c ∈ ids.filterMap (find? components) ↔ c ∈ components ∧ c.cell.isSequential = false := by
  rw [List.mem_filterMap]
  constructor
  · rintro ⟨id, hid, hc⟩
    obtain ⟨hc, hcid⟩ := (find?_eq_some_iff hd).1 hc
    obtain ⟨b, hb, hs, hbid⟩ := mem_values_roots.1 (hperm.mem_iff.1 (List.mem_map_of_mem hid))
    obtain rfl := eq_of_id_eq hd hb hc (hbid.trans hcid.symm)
    exact ⟨hb, hs⟩
  · rintro ⟨hc, hs⟩
    have hvalue : c.id.value ∈ values ids :=
      hperm.mem_iff.2 (mem_values_roots.2 ⟨c, hc, hs, rfl⟩)
    obtain ⟨id, hid, hv⟩ := List.mem_map.1 hvalue
    exact ⟨id, hid, (find?_eq_some_iff hd).2 ⟨hc, hv.symm⟩⟩

/-- Components are ordered by the traversal of their dependencies. -/
theorem ofComponents_eq (components : List Component) :
    ofComponents components =
      ((order (drivers components) (roots components)).mapError Error.cycle).map fun ids =>
        ⟨components, ids.filterMap (find? components)⟩ := by
  unfold ofComponents roots
  dsimp only
  split
  · next hids => rw [hids]; rfl
  · next hids => rw [hids]; rfl

/-- Components that can be ordered are in the order that the traversal finds. -/
theorem exists_order {s : Schedule} (h : ofComponents components = .ok s) :
    ∃ ids, order (drivers components) (roots components) = .ok ids ∧
      s = ⟨components, ids.filterMap (find? components)⟩ := by
  rw [ofComponents_eq] at h
  obtain ⟨ids, hids, rfl⟩ := map_eq_ok.1 h
  exact ⟨ids, mapError_eq_ok.1 hids, rfl⟩

/-- Components can be ordered, or there is a cycle. -/
theorem ofComponents_ok_or_cycle (components : List Component) :
    (∃ s, ofComponents components = .ok s) ∨
      ∃ ids, ofComponents components = .error (.cycle ids) := by
  rw [ofComponents_eq]
  cases order (drivers components) (roots components) with
  | error ids => exact .inr ⟨ids, rfl⟩
  | ok ids => exact .inl ⟨_, rfl⟩

/-- A cycle is reported if the traversal meets one. -/
theorem exists_ofComponents_cycle_iff :
    (∃ ids, ofComponents components = .error (.cycle ids)) ↔
      ∃ ids, order (drivers components) (roots components) = .error ids := by
  rw [ofComponents_eq]
  cases order (drivers components) (roots components) with
  | error ids => exact ⟨fun _ => ⟨ids, rfl⟩, fun _ => ⟨ids, rfl⟩⟩
  | ok ids => simp [Except.mapError, Except.map]

/-- An order of components holds each combinational one once, after all that it reads. -/
theorem ofComponents_ok (hd : (numbers components).Nodup) {s : Schedule}
    (h : ofComponents components = .ok s) :
    s.components = components ∧
      s.combinational.Perm (components.filter fun c => !c.cell.isSequential) ∧
      ∀ before c after, s.combinational = before ++ c :: after →
        ∀ w ∈ c.cell.reads, ∀ b ∈ components, b.cell.isSequential = false →
          b.id.value = w.driver.value → b ∈ before := by
  obtain ⟨ids, hids, rfl⟩ := exists_order h
  obtain ⟨hperm, hordered⟩ := order_ok (isGraph hd) hids
  have hfound : ∀ id ∈ ids, id.value ∈ values (roots components) := fun id hid =>
    hperm.mem_iff.1 (List.mem_map_of_mem hid)
  have hnumbers := numbers_filterMap_find? hd hfound
  have hmem : ∀ c, c ∈ ids.filterMap (find? components) ↔
      c ∈ components ∧ c.cell.isSequential = false := fun _ => mem_filterMap_find? hd hperm
  have hnodup : (numbers (ids.filterMap (find? components))).Nodup := by
    rw [hnumbers]
    exact hperm.nodup_iff.2 (isGraph hd).nodup
  refine ⟨rfl, ?_, ?_⟩
  · have hdistinct := (List.Nodup.of_map _ hd).filter fun c => !c.cell.isSequential
    refine (List.perm_ext_iff_of_nodup (.of_map _ hnodup) hdistinct).2 fun c => ?_
    simp [hmem]
  · intro before c after hsplit w hw b hb hs hbw
    change ids.filterMap (find? components) = before ++ c :: after at hsplit
    -- the split of the components is one of the ids that they were found under
    rw [hsplit, numbers, List.map_append, List.map_cons, values, eq_comm,
      List.map_eq_append_iff] at hnumbers
    obtain ⟨first, rest, rfl, hfirst, hrest⟩ := hnumbers
    obtain ⟨id, later, rfl, hid, -⟩ := List.map_eq_cons_iff.1 hrest
    have hc : c ∈ components := ((hmem c).1 (by rw [hsplit]; simp)).1
    have hdriver : w.driver ∈ drivers components id :=
      (mem_drivers_iff hd hc hid.symm).2 ⟨⟨w, hw, rfl⟩, mem_values_roots.2 ⟨b, hb, hs, hbw⟩⟩
    have hbefore : w.driver.value ∈ values first := hordered.mem_before hdriver
    rw [values, hfirst] at hbefore
    obtain ⟨b', hb', hv⟩ := List.mem_map.1 hbefore
    have hmem' : b' ∈ components := ((hmem b').1 (by rw [hsplit]; simp [hb'])).1
    rwa [eq_of_id_eq hd hb hmem' (hbw.trans hv.symm)]

end Schedule

/-! ### Instances by what they hold -/

namespace Instance

/-- Is the instance of a primitive with a property? -/
def isOf (p : Primitive → Bool) (i : Instance) : Bool :=
  match i.primitive with
  | .ok kind => p kind
  | .error _ => false

/-- Is the instance one that holds no state? -/
def isCombinational : Instance → Bool := isOf fun kind => !kind.isSequential

/-- Is the instance a register, with or without an enable? -/
def isRegister : Instance → Bool := isOf Primitive.isRegister

/-- Is the instance a memory, of one port or two? -/
def isMemory : Instance → Bool := isOf Primitive.isMemory

variable {i : Instance} {c : Component}

private theorem isOf_eq [Machine] (h : Component.ofInstance i = .ok c) (p : Primitive → Bool) :
    i.isOf p = p c.kind := by
  rw [isOf, (Component.ofInstance_ok h).2.1]

theorem isCombinational_eq [Machine] (h : Component.ofInstance i = .ok c) :
    i.isCombinational = !c.cell.isSequential := by
  rw [isCombinational, isOf_eq h, (Component.ofInstance_ok h).2.2.1.isSequential_eq]

theorem isRegister_eq [Machine] (h : Component.ofInstance i = .ok c) :
    i.isRegister = c.cell.isRegister := by
  rw [isRegister, isOf_eq h, (Component.ofInstance_ok h).2.2.1.isRegister_eq]

theorem isMemory_eq [Machine]
    (h : Component.ofInstance i = .ok c) : i.isMemory = c.cell.isMemory := by
  rw [isMemory, isOf_eq h, (Component.ofInstance_ok h).2.2.1.isMemory_eq]

/-- The component of a combinational instance reads the inputs of that instance. -/
theorem reads_eq [Machine] (h : Component.ofInstance i = .ok c) (hc : i.isCombinational = true) :
    c.cell.reads = i.inputs := by
  refine (Component.ofInstance_ok h).2.2.1.reads_eq ?_
  simpa [isCombinational, isOf_eq h] using hc

end Instance

/-! ### Schedules of netlists -/

namespace Netlist

/-- Does a combinational instance of a netlist read another one? -/
def Reads (n : Netlist) (i j : Instance) : Prop :=
  i ∈ n.instances ∧ i.isCombinational = true ∧ j ∈ n.instances ∧ j.isCombinational = true ∧
    ∃ w ∈ i.inputs, w.driver.value = j.id.value

/-- A schedule of a netlist: its combinational instances in some order, none left out and none
twice, each after all that it reads; its registers and its memories in ascending order. -/
structure IsScheduledBy [Machine] (n : Netlist) (s : Schedule) : Prop where
  combinational : ∃ order : List Instance,
    order.mapM Component.ofInstance = .ok s.combinational ∧
    order.Nodup ∧ (∀ i, i ∈ order ↔ i ∈ n.instances ∧ i.isCombinational = true) ∧
    ∀ before i after, order = before ++ i :: after → ∀ j, n.Reads i j → j ∈ before
  registers : (n.instances.filter Instance.isRegister).mapM Component.ofInstance = .ok s.registers
  memories : (n.instances.filter Instance.isMemory).mapM Component.ofInstance = .ok s.memories

variable {n : Netlist} {components : List Component}

private theorem eq_of_component [Machine] {i j : Instance} {c : Component} (hi : i ∈ n.instances)
    (hj : j ∈ n.instances) (hic : Component.ofInstance i = .ok c)
    (hjc : Component.ofInstance j = .ok c) : i = j := by
  refine eq_of_id_eq hi hj ?_
  rw [← (Component.ofInstance_ok hic).1, (Component.ofInstance_ok hjc).1]

/-- Components have the ids of their instances. -/
theorem map_id_components [Machine] {instances : List Instance}
    (h : instances.mapM Component.ofInstance = .ok components) :
    components.map (·.id) = instances.map (·.id) := by
  rw [mapM_eq_ok] at h
  induction instances generalizing components with
  | nil =>
    obtain rfl := List.map_eq_nil_iff.1 h.symm
    rfl
  | cons i rest ih =>
    rw [List.map_cons] at h
    obtain ⟨c, later, rfl, hc, hlater⟩ := List.map_eq_cons_iff.1 h.symm
    rw [List.map_cons, List.map_cons, ih hlater.symm, (Component.ofInstance_ok hc.symm).1]

/-- The components of a netlist have the ids of its instances, as numbers. -/
theorem numbers_components [Machine] (h : n.instances.mapM Component.ofInstance = .ok components) :
    Schedule.numbers components = n.instances.map (·.id.value) := by
  have hvalues := congrArg values (map_id_components h)
  rwa [values, values, List.map_map, List.map_map] at hvalues

/-- The components of a netlist have distinct ids. -/
theorem nodup_numbers [Machine] (h : n.instances.mapM Component.ofInstance = .ok components) :
    (Schedule.numbers components).Nodup := by
  rw [numbers_components h]
  exact List.pairwise_map.2 (n.ascending.imp fun hlt => Nat.ne_of_lt hlt)

/-- The steps of scheduling, each of which succeeded. -/
theorem schedule_ok [Machine] {s : Schedule} (h : n.schedule = .ok s) :
    n.check = .ok () ∧ n.instances.mapM Component.ofInstance = .ok s.components ∧
      Schedule.ofComponents s.components = .ok s := by
  unfold schedule at h
  obtain ⟨⟨⟩, hcheck, h⟩ := bind_eq_ok.1 h
  obtain ⟨components, hcs, h⟩ := bind_eq_ok.1 h
  have hs := (Schedule.ofComponents_ok (nodup_numbers hcs) h).1
  exact ⟨hcheck, hs ▸ hcs, hs ▸ h⟩

/-- Scheduling a netlist whose checks succeed comes down to ordering its components. -/
theorem schedule_eq [Machine] (hcheck : n.check = .ok ())
    (h : n.instances.mapM Component.ofInstance = .ok components) :
    n.schedule = Schedule.ofComponents components := by
  rw [schedule, hcheck, h]
  rfl

/-- What a combinational instance reads, its component depends on. -/
theorem needs_of_reads [Machine] (h : n.instances.mapM Component.ofInstance = .ok components)
    {i j : Instance} (hij : n.Reads i j) :
    Needs (Schedule.drivers components) i.id j.id := by
  obtain ⟨hi, hci, hj, hcj, w, hw, hwj⟩ := hij
  obtain ⟨c, hc, hic⟩ := exists_result h hi
  obtain ⟨b, hb, hjb⟩ := exists_result h hj
  have hcid : c.id = i.id := (Component.ofInstance_ok hic).1
  have hbid : b.id = j.id := (Component.ofInstance_ok hjb).1
  have hs : b.cell.isSequential = false := by simpa [Instance.isCombinational_eq hjb] using hcj
  have hreads : c.cell.reads = i.inputs := Instance.reads_eq hic hci
  refine ⟨w.driver, ?_, hwj⟩
  refine (Schedule.mem_drivers_iff (nodup_numbers h) hc (by rw [hcid])).2 ⟨⟨w, ?_, rfl⟩, ?_⟩
  · rwa [hreads]
  · exact Schedule.mem_values_roots.2 ⟨b, hb, hs, by rw [hbid, hwj]⟩

/-- What a component depends on, its instance reads. -/
theorem exists_reads [Machine] (h : n.instances.mapM Component.ofInstance = .ok components)
    {i : Instance} (hi : i ∈ n.instances) {a b : Index} (ha : i.id.value = a.value)
    (hab : Needs (Schedule.drivers components) a b) :
    ∃ j, n.Reads i j ∧ j.id.value = b.value := by
  obtain ⟨q, hq, hqb⟩ := hab
  obtain ⟨c, hc, hic⟩ := exists_result h hi
  have hcid : c.id = i.id := (Component.ofInstance_ok hic).1
  obtain ⟨⟨w, hw, rfl⟩, hroot⟩ :=
    (Schedule.mem_drivers_iff (nodup_numbers h) hc (by rw [hcid, ha])).1 hq
  obtain ⟨d, hd, hs, hdid⟩ := Schedule.mem_values_roots.1 hroot
  obtain ⟨j, hj, hjd⟩ := exists_element h hd
  have hjid : d.id = j.id := (Component.ofInstance_ok hjd).1
  -- only combinational cells read anything
  have hsc : c.cell.isSequential = false := by
    cases hcell : c.cell <;> simp_all [Cell.isSequential, Cell.reads]
  have hci : i.isCombinational = true := by rw [Instance.isCombinational_eq hic, hsc]; rfl
  have hcj : j.isCombinational = true := by rw [Instance.isCombinational_eq hjd, hs]; rfl
  have hreads : c.cell.reads = i.inputs := Instance.reads_eq hic hci
  refine ⟨j, ⟨hi, hci, hj, hcj, w, hreads ▸ hw, ?_⟩, ?_⟩
  · rw [← hdid, hjid]
  · rw [← hjid, hdid, hqb]

/-- What is read is an instance of the netlist. -/
theorem mem_of_transGen {i j : Instance} (h : Relation.TransGen n.Reads i j) :
    j ∈ n.instances := by
  obtain ⟨k, -, hkj⟩ := Relation.TransGen.tail'_iff.1 h
  exact hkj.2.2.1

/-- The instances of a netlist read each other in a circle if their components do. -/
theorem exists_transGen_iff [Machine] (h : n.instances.mapM Component.ofInstance = .ok components) :
    (∃ a, Relation.TransGen (Needs (Schedule.drivers components)) a a) ↔
      ∃ i, Relation.TransGen n.Reads i i := by
  constructor
  · rintro ⟨a, hcycle⟩
    have hmem : a.value ∈ values (Schedule.roots components) := by
      obtain ⟨b, -, q, hq, hqa⟩ := Relation.TransGen.tail'_iff.1 hcycle
      exact hqa ▸ (Schedule.isGraph (nodup_numbers h)).closed b q hq
    obtain ⟨c, hc, -, hca⟩ := Schedule.mem_values_roots.1 hmem
    obtain ⟨i, hi, hic⟩ := exists_element h hc
    have hid : i.id.value = a.value := by rw [← (Component.ofInstance_ok hic).1, hca]
    -- each dependence along the cycle is a read of one instance by another
    have hlift : ∀ b, Relation.TransGen (Needs (Schedule.drivers components)) a b →
        ∃ j, Relation.TransGen n.Reads i j ∧ j.id.value = b.value := by
      intro b hab
      induction hab with
      | single hstep =>
        obtain ⟨j, hij, hj⟩ := exists_reads h hi hid hstep
        exact ⟨j, .single hij, hj⟩
      | tail _ hstep ih =>
        obtain ⟨j, hij, hj⟩ := ih
        obtain ⟨k, hjk, hk⟩ := exists_reads h (mem_of_transGen hij) hj hstep
        exact ⟨k, hij.tail hjk, hk⟩
    obtain ⟨j, hij, hj⟩ := hlift a hcycle
    obtain rfl := eq_of_id_eq hi (mem_of_transGen hij) (hid.trans hj.symm)
    exact ⟨i, hij⟩
  · rintro ⟨i, hcycle⟩
    exact ⟨i.id, hcycle.lift Instance.id fun a b hab => needs_of_reads h hab⟩

/-- A schedule that is found holds what a schedule of the netlist must hold. -/
theorem isScheduledBy_of_schedule [Machine] {s : Schedule}
    (h : n.schedule = .ok s) : n.IsScheduledBy s := by
  obtain ⟨-, hcs, hs⟩ := schedule_ok h
  have hd := nodup_numbers hcs
  obtain ⟨-, hperm, hordered⟩ := Schedule.ofComponents_ok hd hs
  have hmem (c : Component) :
      c ∈ s.combinational ↔ c ∈ s.components ∧ c.cell.isSequential = false := by
    simp [hperm.mem_iff]
  refine ⟨?_, mapM_filter hcs fun i c => Instance.isRegister_eq,
    mapM_filter hcs fun i c => Instance.isMemory_eq⟩
  obtain ⟨order, hin, horder⟩ := exists_mapM_eq_ok (p := (· ∈ n.instances)) fun c hc =>
    exists_element hcs ((hmem c).1 hc).1
  have hnodup : s.combinational.Nodup :=
    hperm.nodup_iff.2 ((List.Nodup.of_map _ hd).filter _)
  refine ⟨order, horder, ?_, fun i => ⟨fun hi => ⟨hin i hi, ?_⟩, ?_⟩, ?_⟩
  · refine List.Nodup.of_map Component.ofInstance ?_
    rw [mapM_eq_ok.1 horder]
    exact hnodup.map fun a b => Except.ok.inj
  · obtain ⟨c, hc, hic⟩ := exists_result horder hi
    rw [Instance.isCombinational_eq hic, ((hmem c).1 hc).2]
    rfl
  · rintro ⟨hi, hci⟩
    obtain ⟨c, hc, hic⟩ := exists_result hcs hi
    have hsc : c.cell.isSequential = false := by
      simpa [Instance.isCombinational_eq hic] using hci
    obtain ⟨j, hj, hjc⟩ := exists_element horder ((hmem c).2 ⟨hc, hsc⟩)
    rwa [eq_of_component hi (hin j hj) hic hjc]
  · intro before i after hsplit j hij
    -- the split of the instances is one of their components
    have hmap := mapM_eq_ok.1 horder
    rw [hsplit, List.map_append, List.map_cons] at hmap
    obtain ⟨first, rest, hcombinational, hfirst, hrest⟩ := List.map_eq_append_iff.1 hmap.symm
    obtain ⟨c, later, rfl, hc, -⟩ := List.map_eq_cons_iff.1 hrest
    obtain ⟨-, hci, hj, hcj, w, hw, hwj⟩ := hij
    obtain ⟨b, hb, hjb⟩ := exists_result hcs hj
    have hsb : b.cell.isSequential = false := by
      simpa [Instance.isCombinational_eq hjb] using hcj
    have hreads : c.cell.reads = i.inputs := Instance.reads_eq hc.symm hci
    have hbw : b.id.value = w.driver.value := by rw [(Component.ofInstance_ok hjb).1, hwj]
    have hbefore : b ∈ first :=
      hordered first c later hcombinational w (by rwa [hreads]) b hb hsb hbw
    obtain ⟨k, hk, hkb⟩ := List.mem_map.1 (hfirst ▸ List.mem_map_of_mem (f := Except.ok) hbefore)
    rwa [eq_of_component hj (hin k (by rw [hsplit]; simp [hk])) hjb hkb]

/-- Scheduling a netlist that passes its checks gives a schedule, or the cycle that stands in its
way: there is a cycle exactly if some combinational instance reads itself through combinational
instances alone, and a schedule holds every combinational instance once and after all that it reads,
with registers and memories in ascending order. -/
theorem schedule_sound_and_complete [Machine] (n : Netlist) (hcheck : n.check = .ok ())
    (hinstances : ∀ i ∈ n.instances, ∃ c, Component.ofInstance i = .ok c) :
    ((∃ s, n.schedule = .ok s) ∨ ∃ ids, n.schedule = .error (.cycle ids)) ∧
      ((∃ ids, n.schedule = .error (.cycle ids)) ↔ ∃ i, Relation.TransGen n.Reads i i) ∧
      ∀ s, n.schedule = .ok s → n.IsScheduledBy s := by
  obtain ⟨components, hcs⟩ := exists_mapM_ok hinstances
  have hg := Schedule.isGraph (nodup_numbers hcs)
  refine ⟨?_, ?_, fun s => isScheduledBy_of_schedule⟩
  · rw [schedule_eq hcheck hcs]
    exact Schedule.ofComponents_ok_or_cycle components
  · rw [schedule_eq hcheck hcs, Schedule.exists_ofComponents_cycle_iff,
      exists_order_error_iff hg, exists_transGen_iff hcs]

/-- A netlist whose only output is its exit flag. -/
def withFlag (instances : List Instance) (flag : Wire)
    (ascending : instances.Pairwise fun a b => a.id.value < b.id.value) : Netlist where
  table := instances
  outputs := [("done", flag)]
  idsDistinct := List.pairwise_map.2 (ascending.imp fun hlt => Nat.ne_of_lt hlt)
  namesDistinct := by simp
  namesIdentifiers o ho := by
    rw [List.mem_singleton.1 ho]
    exact (by decide : Text.isIdentifier "done" = true)

@[simp] theorem instances_withFlag {instances : List Instance} {flag : Wire}
    {ascending : instances.Pairwise fun a b => a.id.value < b.id.value} :
    (withFlag instances flag ascending).instances = instances :=
  sorted_of_pairwise ascending

/-- A register that is fed with its own inverted output, and is the exit flag. -/
def toggle : Netlist :=
  withFlag
    [⟨.number 0, "inv", [], [⟨.number 1, .number 0⟩], .number 1⟩,
      ⟨.number 1, "delay", [("init", "0")], [⟨.number 1, .number 0⟩, ⟨.number 0, .number 0⟩],
        .number 1⟩]
    ⟨.number 1, .number 0⟩ (by decide)

open Desktop in
/-- Feedback through a register leaves a schedule. -/
theorem toggle_isScheduled :
    toggle.check = .ok () ∧ (∀ i ∈ toggle.instances, ∃ c, Component.ofInstance i = .ok c) ∧
      ∃ s, toggle.schedule = .ok s ∧ toggle.IsScheduledBy s := by
  have hcheck : toggle.check = .ok () := rfl
  have hinstances : ∀ i ∈ toggle.instances, ∃ c, Component.ofInstance i = .ok c := by
    intro i hi
    simp only [toggle, instances_withFlag, List.mem_cons, List.not_mem_nil, or_false] at hi
    rcases hi with rfl | rfl
    · exact ⟨_, rfl⟩
    · exact ⟨⟨.number 1, .delay, .register false none ⟨.number 0, .number 0⟩⟩, rfl⟩
  have hschedule : toggle.schedule = .ok
      ⟨[⟨.number 0, .inv, .inverter ⟨.number 1, .number 0⟩⟩,
          ⟨.number 1, .delay, .register false none ⟨.number 0, .number 0⟩⟩],
        [⟨.number 0, .inv, .inverter ⟨.number 1, .number 0⟩⟩]⟩ := by
    cbv
  exact ⟨hcheck, hinstances, _, hschedule,
    (schedule_sound_and_complete toggle hcheck hinstances).2.2 _ hschedule⟩

end Netlist

end Latchwork
