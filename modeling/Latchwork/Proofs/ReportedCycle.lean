import Latchwork.Proofs.ForwardBuilding

/-!
# The cycle that is reported

A netlist whose combinational instances depend on each other in a circle has no schedule, and the
failure names the instances of one such circle. The traversal keeps the nodes from its root to the
current one on a path, where each node is needed by the node below it; the report is the part of
that path down to the node that is needed once more. So the instances that it names are distinct,
each reads the one named before it, and the first reads the last.
-/

namespace Latchwork

open Outcome Traversal

/-! ### Cycles of a traversal -/

namespace Traversal

variable {needs : Index → List Index} {nodes fresh finished : List Index} {path : List Frame}

private theorem cycleTo_isPrefix (p : Index) (path : List Frame) :
    cycleTo p path <+: path.map Frame.node := by
  induction path with
  | nil => exact List.prefix_refl _
  | cons f below ih =>
    rw [cycleTo, List.map_cons]
    split
    · exact ⟨below.map Frame.node, rfl⟩
    · exact List.cons_prefix_cons.mpr ⟨rfl, ih⟩

private theorem Invariant.nodup_path (g : IsGraph needs nodes)
    (h : Invariant needs nodes fresh path finished) :
    (values (path.map Frame.node)).Nodup ∧ values (path.map Frame.node) ⊆ values nodes := by
  have hall := h.accounted.nodup_iff.mpr g.nodup
  obtain ⟨hopen, -, -⟩ := List.nodup_append.mp hall
  refine ⟨(List.nodup_append.mp hopen).2.1, ?_⟩
  intro k hk
  apply h.accounted.subset
  simp [hk]

/-- The nodes of a cycle that the traversal meets are distinct nodes of the graph. -/
theorem run_error (g : IsGraph needs nodes) (h : Invariant needs nodes fresh path finished)
    {ids : List Index} (herror : run needs fresh path finished = .error ids) :
    (values ids).Nodup ∧ values ids ⊆ values nodes := by
  -- the induction follows the calls of the traversal; each call keeps the invariant
  fun_induction run needs fresh path finished with
  | case1 finished => cases herror
  | case2 finished root rest ih => exact ih h.root herror
  | case3 fresh finished node below ih => exact ih h.leave herror
  | case4 fresh finished node p pending below hfresh ih =>
    exact ih (h.enter (any_same_iff.1 hfresh)) herror
  | case5 fresh finished node p pending below hfresh hpath =>
    rw [List.map_attach_eq_pmap, List.pmap_eq_map] at hpath
    rw [if_pos hpath] at herror
    cases herror
    obtain ⟨hnodup, hsubset⟩ := h.nodup_path g
    have hpart : values (cycleTo p (⟨node, pending⟩ :: below)) <+:
        values (node :: below.map Frame.node) := (cycleTo_isPrefix p _).map Index.value
    exact ⟨hnodup.sublist hpart.sublist, fun k hk => hsubset (hpart.subset hk)⟩
  | case6 fresh finished node p pending below hfresh hpath ih =>
    rw [List.map_attach_eq_pmap, List.pmap_eq_map] at hpath
    rw [if_neg hpath] at herror
    exact ih (h.skip g (mt any_same_iff.2 hfresh) (mt any_same_iff.2 hpath)) herror

end Traversal

/-! ### Where a cycle can be reported -/

namespace Netlist

variable {n : Netlist}

private theorem reportsNoCycle_checkWire (site : Site) (w : Wire) :
    ReportsNoCycle (n.checkWire site w) := by
  refine .bind ?_ fun _ => ?_
  · intro e he
    rw [(Numeral.written_eq_error.mp he).2]
    exact beq_eq_false_iff_ne.mp rfl
  · split
    · exact .error rfl
    · split
      · exact .ok _
      · exact .error rfl

private theorem reportsNoCycle_check : ReportsNoCycle n.check := by
  unfold check
  apply ReportsNoCycle.bind
  · intro e h
    obtain ⟨_, i, _, -, -, hi⟩ := forM_eq_error.mp h
    obtain ⟨_, ⟨w, k⟩, _, -, -, hw⟩ := forM_eq_error.mp hi
    exact reportsNoCycle_checkWire _ w e hw
  · intro _ e h
    obtain ⟨_, ⟨name, w⟩, _, -, -, hw⟩ := forM_eq_error.mp h
    exact reportsNoCycle_checkWire _ w e hw

/-- A cycle is reported when all instances have passed their check, and the traversal met it. -/
theorem schedule_eq_cycle [Machine] {ids : List Index} (h : n.schedule = .error (.cycle ids)) :
    ∃ components, n.instances.mapM Component.ofInstance = .ok components ∧
      order (Schedule.drivers components) (Schedule.roots components) = .error ids := by
  unfold schedule at h
  rcases bind_eq_error.mp h with h | ⟨_, -, h⟩
  · exact absurd rfl (reportsNoCycle_check _ h)
  rcases bind_eq_error.mp h with h | ⟨components, hcs, h⟩
  · obtain ⟨_, i, _, -, -, hi⟩ := mapM_eq_error h
    exact absurd rfl (Component.reportsNoCycle_ofInstance i _ hi)
  refine ⟨components, hcs, ?_⟩
  rw [Schedule.ofComponents_eq] at h
  cases horder : order (Schedule.drivers components) (Schedule.roots components) with
  | error met =>
    rw [horder] at h
    cases h
    rfl
  | ok met =>
    rw [horder] at h
    cases h

/-! ### Cycles of a netlist -/

/-- Instances that depend on each other in a circle: they are distinct combinational instances of
the netlist, each has an input that the one before it drives, and the first has one that the last
drives. -/
structure IsCycle (n : Netlist) (cycle : List Instance) : Prop where
  nonempty : cycle ≠ []
  distinct : (cycle.map (·.id.value)).Nodup
  combinational : ∀ i ∈ cycle, i ∈ n.instances ∧ i.isCombinational = true
  consumes : cycle.IsChain fun a b => ∃ w ∈ b.inputs, w.driver.value = a.id.value
  closes : ∀ first ∈ cycle.head?, ∀ last ∈ cycle.getLast?,
    ∃ w ∈ first.inputs, w.driver.value = last.id.value

variable {components : List Component}

/-- The number of a combinational component is that of a combinational instance. -/
theorem exists_combinational [Machine] (h : n.instances.mapM Component.ofInstance = .ok components)
    {k : Nat} (hk : k ∈ values (Schedule.roots components)) :
    ∃ i ∈ n.instances, i.isCombinational = true ∧ i.id.value = k := by
  obtain ⟨c, hc, hsequential, hid⟩ := Schedule.mem_values_roots.mp hk
  obtain ⟨i, hi, hic⟩ := exists_element h hc
  refine ⟨i, hi, ?_, ?_⟩
  · rw [Instance.isCombinational_eq hic, hsequential]
    rfl
  · rw [← (Component.ofInstance_ok hic).1, hid]

private theorem exists_input [Machine] (h : n.instances.mapM Component.ofInstance = .ok components)
    {i j : Instance}
    (hi : i ∈ n.instances) (hj : j ∈ n.instances) {a b : Index} (ha : i.id.value = a.value)
    (hb : j.id.value = b.value) (hab : Needs (Schedule.drivers components) a b) :
    ∃ w ∈ i.inputs, w.driver.value = j.id.value := by
  obtain ⟨k, ⟨-, -, hk, -, hw⟩, hkb⟩ := exists_reads h hi ha hab
  rwa [eq_of_id_eq hj hk (hb.trans hkb.symm)]

/-- A cycle of components is one of their instances. -/
theorem exists_isCycle [Machine] (h : n.instances.mapM Component.ofInstance = .ok components)
    {ids : List Index} (hcycle : Traversal.IsCycle (Schedule.drivers components) ids)
    (hnodup : (values ids).Nodup) (hroots : values ids ⊆ values (Schedule.roots components)) :
    ∃ cycle, n.IsCycle cycle ∧ cycle.map (·.id.value) = values ids := by
  have hinstance : ∀ id ∈ ids, ∃ i ∈ n.instances, i.isCombinational = true ∧
      i.id.value = id.value := fun id hid =>
    exists_combinational h (hroots (List.mem_map_of_mem hid))
  have hinhabited : Nonempty Instance := by
    obtain ⟨id, hid⟩ := List.exists_mem_of_ne_nil ids hcycle.nonempty
    exact ⟨(hinstance id hid).choose⟩
  choose! chosen hmem hcombinational hvalue using hinstance
  have hvalues : (ids.map chosen).map (·.id.value) = values ids := by
    rw [List.map_map]
    exact List.map_congr_left hvalue
  refine ⟨ids.map chosen, ⟨?_, ?_, ?_, ?_, ?_⟩, hvalues⟩
  · simpa using hcycle.nonempty
  · rwa [hvalues]
  · intro i hi
    obtain ⟨id, hid, rfl⟩ := List.mem_map.mp hi
    exact ⟨hmem id hid, hcombinational id hid⟩
  · rw [List.isChain_map]
    apply hcycle.chain.imp_of_mem_imp
    intro a b ha hb hneeds
    exact exists_input h (hmem b hb) (hmem a ha) (hvalue b hb) (hvalue a ha) hneeds
  · intro i hi j hj
    rw [List.head?_map, Option.mem_map] at hi
    rw [List.getLast?_map, Option.mem_map] at hj
    obtain ⟨first, hfirst, rfl⟩ := hi
    obtain ⟨last, hlast, rfl⟩ := hj
    have hf : first ∈ ids := List.mem_of_mem_head? hfirst
    have hl : last ∈ ids := List.mem_of_mem_getLast? hlast
    exact exists_input h (hmem first hf) (hmem last hl) (hvalue first hf) (hvalue last hl)
      (hcycle.closes first hfirst last hlast)

/-- A schedule that fails for a cycle names the ids of a cycle of the netlist, each before the one
that reads it, and points at the first of them. -/
theorem schedule_reports_cycle [Machine] (n : Netlist) (ids : List Index)
    (h : n.schedule = .error (.cycle ids)) :
    (∃ cycle, n.IsCycle cycle ∧ cycle.map (·.id.value) = ids.map (·.value)) ∧
      ∃ first rest, ids = first :: rest ∧ (Error.cycle ids).subject = first.toValue := by
  obtain ⟨components, hcs, horder⟩ := schedule_eq_cycle h
  have hg := Schedule.isGraph (nodup_numbers hcs)
  have hcycle := order_error hg horder
  obtain ⟨hnodup, hroots⟩ := run_error hg (.initial _ _) horder
  refine ⟨exists_isCycle hcs hcycle hnodup hroots, ?_⟩
  cases ids with
  | nil => exact absurd rfl hcycle.nonempty
  | cons first rest => exact ⟨first, rest, rfl, rfl⟩

/-- Three gates in a circle, and a gate before them that only reads one of the three. -/
def ring : Netlist :=
  withFlag
    [⟨.number 0, "inv", [], [⟨.number 3, .number 0⟩], .number 1⟩,
      ⟨.number 1, "high", [], [], .number 1⟩,
      ⟨.number 2, "and2", [], [⟨.number 1, .number 0⟩, ⟨.number 4, .number 0⟩], .number 1⟩,
      ⟨.number 3, "inv", [], [⟨.number 2, .number 0⟩], .number 1⟩,
      ⟨.number 4, "inv", [], [⟨.number 3, .number 0⟩], .number 1⟩]
    ⟨.number 0, .number 0⟩ (by decide)

open Desktop in
/-- The traversal starts at the gate outside the circle, and the report leaves it out. -/
theorem ring_reports_cycle :
    ring.schedule = .error (.cycle [.number 4, .number 2, .number 3]) ∧
      ∃ cycle, ring.IsCycle cycle ∧ cycle.map (·.id.value) = [4, 2, 3] := by
  have hschedule : ring.schedule = .error (.cycle [.number 4, .number 2, .number 3]) := by cbv
  exact ⟨hschedule, (schedule_reports_cycle ring _ hschedule).1⟩

end Netlist

end Latchwork
