import Latchwork.Proofs.PostOrder

/-!
# Netlists in dependency order

If each root of a traversal comes after all that it needs, then everything that a root needs is
finished when the root is taken up. So no path grows beyond its root, and the traversal gives the
roots back as they are.

Instances are taken up in ascending order of their ids. Hence a schedule keeps this order exactly
if every combinational instance reads combinational instances of smaller ids only; where registers
and memories stand, and what they read, makes no difference.
-/

namespace Latchwork

open Outcome Traversal

/-! ### Traversals that never descend -/

namespace Traversal

variable {needs : Index → List Index} {nodes fresh finished pending ids : List Index}
  {below : List Frame} {node : Index}

private theorem run_leave_of_settled
    (h : ∀ p ∈ pending, p.value ∉ values fresh ∧ p.value ∉ values (node :: below.map Frame.node)) :
    run needs fresh (⟨node, pending⟩ :: below) finished =
      run needs fresh below (node :: finished) := by
  induction pending with
  | nil => exact run_leave
  | cons p pending ih =>
    obtain ⟨hfresh, hpath⟩ := h p (.head _)
    rw [run_pass hfresh hpath]
    exact ih fun q hq => h q (.tail _ hq)

/-- Roots that come after all that they need are finished one after the other. -/
theorem run_of_ordered (hnodup : (values (finished.reverse ++ fresh)).Nodup)
    (h : Ordered needs (finished.reverse ++ fresh).reverse) :
    run needs fresh [] finished = .ok (finished.reverse ++ fresh) := by
  induction fresh generalizing finished with
  | nil => rw [run, List.append_nil]
  | cons root rest ih =>
    have hsettled : ∀ p ∈ needs root, p.value ∉ values rest ∧ p.value ∉ values [root] := by
      intro p hp
      have hbefore : p.value ∈ values finished.reverse := h.mem_before hp
      rw [values, List.map_append] at hnodup
      have hlater : p.value ∉ values (root :: rest) := List.disjoint_of_nodup_append hnodup hbefore
      rw [values_cons, List.mem_cons, not_or] at hlater
      exact ⟨hlater.2, mt List.mem_singleton.1 hlater.1⟩
    have hnext : finished.reverse ++ root :: rest = (root :: finished).reverse ++ rest := by simp
    rw [run_root, run_leave_of_settled hsettled, hnext]
    rw [hnext] at hnodup h
    exact ih hnodup h

private theorem ordered_reverse_of_split
    (h : ∀ before a after, ids = before ++ a :: after → ∀ q ∈ needs a, q.value ∈ values before) :
    Ordered needs ids.reverse := by
  induction ids using List.reverseRecOn with
  | nil => trivial
  | append_singleton ids a ih =>
    rw [List.reverse_concat]
    refine ⟨fun q hq => ?_, ih fun before b after hsplit => ?_⟩
    · rw [values_reverse, List.mem_reverse]
      exact h ids a [] rfl q hq
    · exact h before b (after ++ [a]) (by simp [hsplit])

/-- Nodes in ascending order are in dependency order if they need smaller ones only. -/
theorem IsGraph.ordered_reverse (g : IsGraph needs nodes)
    (hascending : (values nodes).Pairwise (· < ·))
    (hsmaller : ∀ a ∈ nodes, ∀ q ∈ needs a, q.value < a.value) : Ordered needs nodes.reverse := by
  refine ordered_reverse_of_split ?_
  rintro before a after rfl q hq
  have hlt : q.value < a.value := hsmaller a (by simp) q hq
  have hmem : q.value ∈ values (before ++ a :: after) := g.closed a q hq
  rw [values, List.map_append, List.map_cons] at hascending hmem
  obtain ⟨-, hrest, -⟩ := List.pairwise_append.1 hascending
  rcases List.mem_append.1 hmem with hbefore | hlater
  · exact hbefore
  · -- from the node itself on, all numbers are too large
    rcases List.mem_cons.1 hlater with heq | hafter
    · omega
    · have := (List.pairwise_cons.1 hrest).1 _ hafter
      omega

private theorem Ordered.lt_of_ascending (h : Ordered needs ids.reverse)
    (hascending : (values ids).Pairwise (· < ·)) {a q : Index} (ha : a ∈ ids) (hq : q ∈ needs a) :
    q.value < a.value := by
  obtain ⟨before, after, rfl⟩ := List.append_of_mem ha
  rw [values, List.map_append, List.map_cons] at hascending
  exact (List.pairwise_append.1 hascending).2.2 _ (h.mem_before hq) _ (.head _)

private theorem order_ascending_iff (g : IsGraph needs nodes)
    (hascending : (values nodes).Pairwise (· < ·)) (h : order needs nodes = .ok ids) :
    (values ids).Pairwise (· < ·) ↔ ∀ a ∈ nodes, ∀ q ∈ needs a, q.value < a.value := by
  constructor
  · intro hids a ha q hq
    obtain ⟨hperm, hordered⟩ := order_ok g h
    obtain ⟨b, hb, hba⟩ := List.mem_map.1 (hperm.mem_iff.2 (List.mem_map_of_mem ha))
    rw [g.respects a b hba.symm] at hq
    exact hba ▸ hordered.lt_of_ascending hids hb hq
  · intro hsmaller
    have hkept : order needs nodes = .ok nodes :=
      run_of_ordered g.nodup (g.ordered_reverse hascending hsmaller)
    obtain rfl : ids = nodes := by simpa [h] using hkept
    exact hascending

end Traversal

/-! ### Schedules in ascending order -/

namespace Netlist

variable {n : Netlist} {components : List Component}

private theorem ascending_roots [Machine]
    (h : n.instances.mapM Component.ofInstance = .ok components) :
    (values (Schedule.roots components)).Pairwise (· < ·) := by
  have hnumbers : (Schedule.numbers components).Pairwise (· < ·) := by
    rw [numbers_components h]
    exact List.pairwise_map.2 n.ascending
  rw [values, Schedule.roots, List.map_map]
  exact hnumbers.sublist (List.filter_sublist.map _)

/-- Components need smaller ones only if their instances read smaller ones only. -/
theorem drivers_lt_iff [Machine] (h : n.instances.mapM Component.ofInstance = .ok components) :
    (∀ a ∈ Schedule.roots components, ∀ q ∈ Schedule.drivers components a, q.value < a.value) ↔
      ∀ i j, n.Reads i j → j.id.value < i.id.value := by
  have hd := nodup_numbers h
  constructor
  · intro hsmaller i j hij
    obtain ⟨q, hq, hqj⟩ := needs_of_reads h hij
    obtain ⟨hi, hcombinational, -⟩ := hij
    have hkind := (isCombinational_eq h (find?_eq_some_iff.2 ⟨hi, rfl⟩)).trans hcombinational
    obtain ⟨a, ha, hai⟩ := List.mem_map.1 ((Schedule.isCombinational_iff hd).1 hkind)
    rw [(Schedule.isGraph hd).respects i.id a hai.symm] at hq
    have hlt := hsmaller a ha q hq
    rwa [hqj, hai] at hlt
  · intro hsmaller a ha q hq
    obtain ⟨i, hi, -, hia⟩ := exists_combinational h (List.mem_map_of_mem ha)
    obtain ⟨j, hij, hjq⟩ := exists_reads h hi hia ⟨q, hq, rfl⟩
    have hlt := hsmaller i j hij
    rwa [hjq, hia] at hlt

/-- A schedule is in ascending order of ids exactly if every combinational instance of the netlist
reads combinational instances of smaller ids only. -/
theorem schedule_ascending_iff [Machine] (n : Netlist) (s : Schedule) (h : n.schedule = .ok s) :
    s.combinational.Pairwise (fun a b => a.id.value < b.id.value) ↔
      ∀ i j, n.Reads i j → j.id.value < i.id.value := by
  obtain ⟨-, hcs, hs⟩ := schedule_ok h
  have hd := nodup_numbers hcs
  obtain ⟨ids, hids, hfound⟩ := Schedule.exists_order hs
  have hcombinational : s.combinational = ids.filterMap (Schedule.find? s.components) :=
    congrArg Schedule.combinational hfound
  have hperm := (order_ok (Schedule.isGraph hd) hids).1
  have hnumbers : Schedule.numbers s.combinational = values ids := by
    rw [hcombinational]
    exact Schedule.numbers_filterMap_find? hd fun id hid =>
      hperm.mem_iff.1 (List.mem_map_of_mem hid)
  rw [← drivers_lt_iff hcs, ← order_ascending_iff (Schedule.isGraph hd) (ascending_roots hcs) hids,
    ← hnumbers, Schedule.numbers, List.pairwise_map]

/-- Two registers in a ring: an inverter reads the last one, a gate joins the inverter with the
first one, and both registers read the gate. -/
def twoStage : Netlist :=
  withFlag
    [⟨.number 0, "inv", [], [⟨.number 3, .number 0⟩], .number 1⟩,
      ⟨.number 1, "delay", [("init", "1")], [⟨.number 2, .number 0⟩, ⟨.number 2, .number 0⟩],
        .number 1⟩,
      ⟨.number 2, "and2", [], [⟨.number 0, .number 0⟩, ⟨.number 1, .number 0⟩], .number 1⟩,
      ⟨.number 3, "delay", [("init", "0")], [⟨.number 0, .number 0⟩, ⟨.number 2, .number 0⟩],
        .number 1⟩]
    ⟨.number 3, .number 0⟩ (by decide)

open Desktop in
/-- Wires from and to later registers do not disturb the ascending order. -/
theorem twoStage_ascending :
    ∃ s, twoStage.schedule = .ok s ∧
      s.combinational.map (·.id) = [.number 0, .number 2] ∧
      s.combinational.Pairwise (fun a b => a.id.value < b.id.value) ∧
      ∀ i j, twoStage.Reads i j → j.id.value < i.id.value := by
  have hschedule : twoStage.schedule = .ok
      ⟨[⟨.number 0, .inv, .inverter ⟨.number 3, .number 0⟩⟩,
          ⟨.number 1, .delay, .register true none ⟨.number 2, .number 0⟩⟩,
          ⟨.number 2, .and2, .gate .and ⟨.number 0, .number 0⟩ ⟨.number 1, .number 0⟩⟩,
          ⟨.number 3, .delay, .register false none ⟨.number 2, .number 0⟩⟩],
        [⟨.number 0, .inv, .inverter ⟨.number 3, .number 0⟩⟩,
          ⟨.number 2, .and2, .gate .and ⟨.number 0, .number 0⟩ ⟨.number 1, .number 0⟩⟩]⟩ := by
    cbv
  have hascending := schedule_ascending_iff twoStage _ hschedule
  exact ⟨_, hschedule, rfl, by simp, hascending.1 (by simp)⟩

end Netlist

end Latchwork
