import Latchwork.Proofs.ReportedCycle

/-!
# The schedule by recursion

The order of a schedule, as one would define it without a stack. To visit instances, take them in
turn and pass over those that hold state and those that are finished; an instance is finished after
the drivers of its inputs have been visited, in declared order. The path holds the instances whose
drivers are being visited, and a driver on the path closes a cycle.

The traversal with a stack of pending nodes and the recursion meet at every frame: a frame whose
nodes are pending goes on as the recursion over them says, and with the same nodes left and
finished. So the two give the same sequence of instances, or the same cycle.
-/

namespace Latchwork

open Outcome Traversal

/-! ### Steps of the traversal -/

namespace Traversal

variable {needs : Index → List Index} {fresh finished pending : List Index} {below : List Frame}
  {node p : Index}

/-- The traversal starts a path at the first node that is fresh. -/
theorem run_root (root : Index) :
    run needs (root :: fresh) [] finished = run needs fresh [⟨root, needs root⟩] finished := by
  rw [run]

/-- A node without pending nodes is finished. -/
theorem run_leave :
    run needs fresh (⟨node, []⟩ :: below) finished = run needs fresh below (node :: finished) := by
  rw [run]

private theorem run_enter (hp : p.value ∈ values fresh) :
    run needs fresh (⟨node, p :: pending⟩ :: below) finished =
      run needs (fresh.eraseP (same p)) (⟨p, needs p⟩ :: ⟨node, pending⟩ :: below) finished := by
  rw [run, if_pos (any_same_iff.2 hp)]

private theorem run_close (hfresh : p.value ∉ values fresh)
    (hp : p.value ∈ values (node :: below.map Frame.node)) :
    run needs fresh (⟨node, p :: pending⟩ :: below) finished =
      .error (cycleTo p (⟨node, pending⟩ :: below)) := by
  rw [run, if_neg (mt any_same_iff.1 hfresh), if_pos (any_same_iff.2 hp)]

/-- Any other pending node is passed over. -/
theorem run_pass (hfresh : p.value ∉ values fresh)
    (hp : p.value ∉ values (node :: below.map Frame.node)) :
    run needs fresh (⟨node, p :: pending⟩ :: below) finished =
      run needs fresh (⟨node, pending⟩ :: below) finished := by
  rw [run, if_neg (mt any_same_iff.1 hfresh), if_neg (mt any_same_iff.1 hp)]

private theorem same_comm (a b : Index) : same a b = same b a := BEq.comm

private theorem cycleTo_eq_take (p : Index) (path : List Frame) :
    cycleTo p path = (path.map Frame.node).take ((path.map Frame.node).findIdx (same p) + 1) := by
  induction path with
  | nil => rfl
  | cons f below ih =>
    rw [cycleTo, List.map_cons, List.findIdx_cons, List.take_succ_cons]
    rw [same_comm]
    cases same p f.node with
    | true => rfl
    | false => exact congrArg (List.cons f.node) ih

/-- Among distinct nodes, removing the first of a number removes all of this number. -/
theorem eraseP_same {xs : List Index} (h : (values xs).Nodup) :
    xs.eraseP (same p) = xs.filter fun a => !same p a := by
  induction xs with
  | nil => rfl
  | cons a rest ih =>
    obtain ⟨ha, hrest⟩ := List.nodup_cons.1 h
    by_cases hp : same p a = true
    · have hvalue : p.value = a.value := beq_iff_eq.1 hp
      rw [List.eraseP_cons_of_pos hp, List.filter_cons_of_neg (by simp [hp]), eq_comm,
        List.filter_eq_self]
      intro b hb
      rw [Bool.not_eq_true', ← Bool.not_eq_true]
      intro hb'
      have hvalue' : p.value = b.value := beq_iff_eq.1 hb'
      apply ha
      rw [← hvalue, hvalue']
      exact List.mem_map_of_mem hb
    · rw [List.eraseP_cons_of_neg hp, List.filter_cons_of_pos (by simp [hp]), ih hrest]

end Traversal

namespace Netlist

/-! ### Depth-first post-order -/

/-- The instances that are not on a path. -/
def offPath (n : Netlist) (path : List Index) : List Instance :=
  n.instances.filter fun i => !path.any (same i.id)

private theorem length_offPath_lt {n : Netlist} {path : List Index} {id : Index} {i : Instance}
    (hi : n.find? id.value = some i) (hid : id.value ∉ values path) :
    (n.offPath (id :: path)).length < (n.offPath path).length := by
  obtain ⟨hmem, hvalue⟩ := find?_eq_some_iff.1 hi
  have hoff : ¬path.any (same i.id) = true := by rwa [any_same_iff, hvalue]
  have hfewer : n.offPath (id :: path) = (n.offPath path).filter fun j => !same j.id id := by
    rw [offPath, offPath, List.filter_filter]
    simp only [List.any_cons, Bool.not_or]
  rw [hfewer, List.length_filter_lt_length_iff_exists]
  exact ⟨i, List.mem_filter.2 ⟨hmem, by simp [hoff]⟩, by simp [same, hvalue]⟩

/-- The ids of instances, as numbers. -/
def numbersOf (instances : List Instance) : List Nat := instances.map (·.id.value)

private theorem numbersOf_concat (instances : List Instance) (i : Instance) :
    numbersOf (instances ++ [i]) = numbersOf instances ++ [i.id.value] := by
  rw [numbersOf, List.map_append]
  rfl

/-- Visits the instances with the given ids, in order. The path leads to the instance whose drivers
they are, tip first, and the finished instances stand in the order in which they were finished. The
result is the finished instances, or the part of the path that a driver closes to a cycle. -/
def visit (n : Netlist) (path ids : List Index) (finished : List Instance) :
    Except (List Index) (List Instance) :=
  match ids with
  | [] => .ok finished
  | id :: rest =>
    match _hi : n.find? id.value with
    | none => n.visit path rest finished
    | some i =>
      if i.isCombinational = false ∨ id.value ∈ numbersOf finished then
        n.visit path rest finished
      else if hid : id.value ∈ values path then
        .error (path.take (path.findIdx (same id) + 1))
      else do
        let finished ← n.visit (id :: path) (i.inputs.map (·.driver)) finished
        n.visit path rest (finished ++ [i])
termination_by ((n.offPath path).length, ids.length)
decreasing_by
  all_goals simp_wf
  · exact .right _ (by omega)
  · exact .right _ (by omega)
  · exact .left _ _ (length_offPath_lt _hi hid)
  · exact .right _ (by omega)

/-- The combinational instances in depth-first post-order, or the first cycle that is met. All
instances are visited in ascending order of their ids. -/
def postOrder (n : Netlist) : Except (List Index) (List Instance) :=
  n.visit [] (n.instances.map (·.id)) []

variable {n : Netlist} {components : List Component}

section Steps

variable {path rest : List Index} {finished drivers : List Instance} {id : Index} {i : Instance}

private theorem visit_nil : n.visit path [] finished = .ok finished := by
  rw [visit]

private theorem visit_pass (hi : n.find? id.value = some i)
    (hskip : i.isCombinational = false ∨ id.value ∈ numbersOf finished) :
    n.visit path (id :: rest) finished = n.visit path rest finished := by
  rw [visit]
  split
  · rfl
  · next j hj =>
    cases hi.symm.trans hj
    rw [if_pos hskip]

private theorem visit_enter (hi : n.find? id.value = some i)
    (hcombinational : i.isCombinational = true)
    (hundone : id.value ∉ numbersOf finished) (hid : id.value ∉ values path)
    (hdrivers : n.visit (id :: path) (i.inputs.map (·.driver)) finished = .ok drivers) :
    n.visit path (id :: rest) finished = n.visit path rest (drivers ++ [i]) := by
  rw [visit]
  split
  · next hj => cases hi.symm.trans hj
  · next j hj =>
    cases hi.symm.trans hj
    rw [if_neg (by simp [hcombinational, hundone]), dif_neg hid, hdrivers]
    rfl

end Steps

private theorem visit_isPrefix {path ids : List Index} {finished order : List Instance}
    (h : n.visit path ids finished = .ok order) : finished <+: order := by
  fun_induction visit n path ids finished generalizing order with
  | case1 path finished =>
    cases h
    exact List.prefix_refl _
  | case2 path finished id rest hi ih => exact ih h
  | case3 path finished id rest i hi hskip ih => exact ih h
  | case4 => cases h
  | case5 path finished id rest i hi hskip hid ihdrivers ihrest =>
    obtain ⟨middle, hdrivers, hrest⟩ := bind_eq_ok.1 h
    calc
      finished <+: middle := ihdrivers hdrivers
      _ <+: middle ++ [i] := List.prefix_append ..
      _ <+: order := ihrest middle hrest

/-! ### Components and instances -/

private theorem find?_component [Machine]
    (h : n.instances.mapM Component.ofInstance = .ok components)
    {id : Index} {i : Instance} (hi : n.find? id.value = some i) :
    ∃ c, Component.ofInstance i = .ok c ∧ Schedule.find? components id = some c := by
  obtain ⟨hmem, hvalue⟩ := find?_eq_some_iff.1 hi
  obtain ⟨c, hc, hic⟩ := exists_result h hmem
  have hid : c.id.value = id.value := by rw [(Component.ofInstance_ok hic).1, hvalue]
  exact ⟨c, hic, (Schedule.find?_eq_some_iff (nodup_numbers h)).2 ⟨hc, hid⟩⟩

/-- The component with an id is combinational if the instance with this id is. -/
theorem isCombinational_eq [Machine] (h : n.instances.mapM Component.ofInstance = .ok components)
    {id : Index} {i : Instance} (hi : n.find? id.value = some i) :
    Schedule.isCombinational components id = i.isCombinational := by
  obtain ⟨c, hic, hc⟩ := find?_component h hi
  rw [Schedule.isCombinational, hc, Option.any_some, Instance.isCombinational_eq hic]

private theorem isCombinational_of_none [Machine]
    (h : n.instances.mapM Component.ofInstance = .ok components)
    {id : Index} (hi : n.find? id.value = none) :
    ¬Schedule.isCombinational components id = true := by
  intro hroot
  obtain ⟨i, himem, -, hid⟩ :=
    exists_combinational h ((Schedule.isCombinational_iff (nodup_numbers h)).1 hroot)
  cases hi.symm.trans (find?_eq_some_iff.2 ⟨himem, hid⟩)

private theorem drivers_eq_filter [Machine]
    (h : n.instances.mapM Component.ofInstance = .ok components) {id : Index}
    {i : Instance} (hi : n.find? id.value = some i) (hcombinational : i.isCombinational = true) :
    Schedule.drivers components id =
      (i.inputs.map (·.driver)).filter (Schedule.isCombinational components) := by
  obtain ⟨c, hic, hc⟩ := find?_component h hi
  rw [Schedule.drivers, hc]
  dsimp only
  rw [Instance.reads_eq hic hcombinational]

private theorem roots_eq_filter [Machine]
    (h : n.instances.mapM Component.ofInstance = .ok components) :
    Schedule.roots components =
      (n.instances.map (·.id)).filter (Schedule.isCombinational components) := by
  have hroots : (n.instances.filter Instance.isCombinational).mapM Component.ofInstance =
      .ok (components.filter fun c => !c.cell.isSequential) :=
    mapM_filter h fun i c => Instance.isCombinational_eq
  have hsame : ∀ i ∈ n.instances,
      (Schedule.isCombinational components ∘ Instance.id) i = i.isCombinational := by
    intro i hi
    exact isCombinational_eq h (find?_eq_some_iff.2 ⟨hi, rfl⟩)
  rw [Schedule.roots, map_id_components hroots, List.filter_map, List.filter_congr hsame]

/-! ### The traversal follows the recursion -/

/-- The nodes that have been entered, as numbers, when these nodes are on the path and these
instances are finished. -/
def entered (path : List Index) (done : List Instance) : List Nat := values path ++ numbersOf done

/-- Has a node not been entered? -/
def isFresh (path : List Index) (done : List Instance) (id : Index) : Bool :=
  decide (id.value ∉ entered path done)

private theorem perm_entered {id : Index} {i : Instance} (hvalue : i.id.value = id.value)
    (path : List Index) (done : List Instance) :
    (entered (id :: path) done).Perm (entered path (done ++ [i])) := by
  rw [entered, entered, numbersOf_concat, hvalue, ← List.append_assoc]
  exact (List.perm_append_singleton id.value _).symm

private theorem filter_isFresh {done later : List Instance} (hsub : done ⊆ later)
    (path ids : List Index) :
    (ids.filter (isFresh path done)).filter (isFresh path later) =
      ids.filter (isFresh path later) := by
  have hentered : entered path done ⊆ entered path later :=
    List.append_subset.2
      ⟨List.subset_append_left .., List.subset_append_of_subset_right _ (List.map_subset _ hsub)⟩
  rw [List.filter_filter]
  apply List.filter_congr
  intro id _
  rw [Bool.and_eq_left_iff_imp]
  intro hfresh
  exact decide_eq_true fun hmem => of_decide_eq_true hfresh (hentered hmem)

/-- The traversal and the recursion have entered and finished the same nodes. The fresh nodes are
the roots that have not been entered, no node has been entered twice, and the finished nodes are the
ids of the finished instances, last first. -/
structure Follows (n : Netlist) (roots fresh path finished : List Index) (done : List Instance) :
    Prop where
  fresh : fresh = roots.filter (isFresh path done)
  distinct : (entered path done).Nodup
  finished : values finished = (numbersOf done).reverse
  members : ∀ i ∈ done, i ∈ n.instances

/-- What a traversal comes to, if the recursion over the nodes that are pending has a result: it
reports the same cycle, or it goes on when these nodes are finished. -/
inductive Continues (n : Netlist) (roots path : List Index)
    (rest : List Index → List Index → Except (List Index) (List Index))
    (outcome : Except (List Index) (List Index)) : Except (List Index) (List Instance) → Prop where
  | reported {cycle : List Index} (h : outcome = .error cycle) :
    Continues n roots path rest outcome (.error cycle)
  | resumed {fresh finished : List Index} {done : List Instance}
    (hf : n.Follows roots fresh path finished done) (h : outcome = rest fresh finished) :
    Continues n roots path rest outcome (.ok done)

namespace Follows

variable {roots fresh path finished : List Index} {done : List Instance} {id : Index}

private theorem initial (n : Netlist) (roots : List Index) : n.Follows roots roots [] [] [] where
  fresh := (List.filter_eq_self.2 fun _ _ => rfl).symm
  distinct := List.nodup_nil
  finished := rfl
  members := by simp

private theorem mem_fresh_iff (h : n.Follows roots fresh path finished done)
    (hid : id.value ∈ values roots) :
    id.value ∈ values fresh ↔ id.value ∉ entered path done := by
  rw [h.fresh, values, List.mem_map]
  constructor
  · rintro ⟨a, ha, hvalue⟩
    rw [← hvalue]
    exact of_decide_eq_true (List.mem_filter.1 ha).2
  · intro hfresh
    obtain ⟨a, ha, hvalue⟩ := List.mem_map.1 hid
    rw [← hvalue] at hfresh
    exact ⟨a, List.mem_filter.2 ⟨ha, decide_eq_true hfresh⟩, hvalue⟩

private theorem enter (h : n.Follows roots fresh path finished done) (hnodup : (values roots).Nodup)
    (hid : id.value ∉ entered path done) :
    n.Follows roots (fresh.eraseP (same id)) (id :: path) finished done where
  fresh := by
    have hsub : (values fresh).Nodup := by
      rw [h.fresh]
      exact hnodup.sublist (List.filter_sublist.map _)
    rw [eraseP_same hsub, h.fresh, List.filter_filter]
    congr 1
    funext a
    rw [same_comm, Bool.eq_iff_iff]
    simp [isFresh, entered, same]
  distinct := List.nodup_cons.2 ⟨hid, h.distinct⟩
  finished := h.finished
  members := h.members

/-- Leaving a node finishes its instance. -/
theorem leave {i : Instance} (h : n.Follows roots fresh (id :: path) finished done)
    (hi : n.find? id.value = some i) :
    n.Follows roots fresh path (id :: finished) (done ++ [i]) := by
  obtain ⟨hmem, hvalue⟩ := find?_eq_some_iff.1 hi
  have hperm := perm_entered hvalue path done
  constructor
  · rw [h.fresh]
    congr 1
    funext a
    simp only [isFresh, hperm.mem_iff]
  · exact hperm.nodup_iff.1 h.distinct
  · rw [values_cons, h.finished, numbersOf_concat, List.reverse_concat, hvalue]
  · intro j hj
    rcases List.mem_append.1 hj with hj | hj
    · exact h.members j hj
    · rwa [List.mem_singleton.1 hj]

end Follows

/-- A frame whose pending nodes are the combinational ones among some ids goes on as the recursion
over these ids says. -/
theorem continues_frame [Machine] (h : n.instances.mapM Component.ofInstance = .ok components)
    (below : List Frame) (ids : List Index) {node : Index} {fresh finished : List Index}
    {done : List Instance}
    (hf : n.Follows (Schedule.roots components) fresh (node :: below.map Frame.node) finished
      done) :
    n.Continues (Schedule.roots components) (node :: below.map Frame.node)
      (fun fresh finished =>
        run (Schedule.drivers components) fresh below (node :: finished))
      (run (Schedule.drivers components) fresh
        (⟨node, ids.filter (Schedule.isCombinational components)⟩ :: below) finished)
      (n.visit (node :: below.map Frame.node) ids done) := by
  have hnodup := (Schedule.isGraph (nodup_numbers h)).nodup
  generalize hpath : node :: below.map Frame.node = path at hf ⊢
  -- the induction follows the calls of the recursion; the stack below the frame varies with it
  fun_induction visit n path ids done generalizing node below fresh finished with
  | case1 path done => exact .resumed hf run_leave
  | case2 path done id rest hi ih =>
    rw [List.filter_cons_of_neg (isCombinational_of_none h hi)]
    exact ih below hpath hf
  | case3 path done id rest i hi hskip ih =>
    have hkind := isCombinational_eq h hi
    by_cases hcombinational : i.isCombinational = true
    · -- a finished instance is neither fresh nor on the path
      have hroot := (Schedule.isCombinational_iff (nodup_numbers h)).1 (hkind.trans hcombinational)
      have hdone : id.value ∈ numbersOf done := by simpa [hcombinational] using hskip
      have hfresh : id.value ∉ values fresh := fun hfresh =>
        (hf.mem_fresh_iff hroot).1 hfresh (List.mem_append_right _ hdone)
      have hoff : id.value ∉ values path := fun hon =>
        List.disjoint_of_nodup_append hf.distinct hon hdone
      rw [List.filter_cons_of_pos (hkind.trans hcombinational), run_pass hfresh (hpath ▸ hoff)]
      exact ih below hpath hf
    · rw [List.filter_cons_of_neg (by rwa [hkind])]
      exact ih below hpath hf
  | case4 path done id rest i hi hskip hid =>
    obtain ⟨hcombinational, -⟩ := not_or.1 hskip
    have hkind := (isCombinational_eq h hi).trans (eq_true_of_ne_false hcombinational)
    have hroot := (Schedule.isCombinational_iff (nodup_numbers h)).1 hkind
    have hfresh : id.value ∉ values fresh := fun hfresh =>
      (hf.mem_fresh_iff hroot).1 hfresh (List.mem_append_left _ hid)
    rw [List.filter_cons_of_pos hkind, run_close hfresh (hpath ▸ hid), cycleTo_eq_take,
      List.map_cons, hpath]
    exact .reported rfl
  | case5 path done id rest i hi hskip hid ihdrivers ihrest =>
    obtain ⟨hstateless, hundone⟩ := not_or.1 hskip
    have hcombinational : i.isCombinational = true := eq_true_of_ne_false hstateless
    have hkind := (isCombinational_eq h hi).trans hcombinational
    have hroot := (Schedule.isCombinational_iff (nodup_numbers h)).1 hkind
    have hnew : id.value ∉ entered path done := by simp [entered, hid, hundone]
    have hfresh : id.value ∈ values fresh := (hf.mem_fresh_iff hroot).2 hnew
    subst hpath
    rw [List.filter_cons_of_pos hkind, run_enter hfresh, drivers_eq_filter h hi hcombinational]
    have hdrivers := ihdrivers (⟨node, rest.filter (Schedule.isCombinational components)⟩ :: below)
      rfl (hf.enter hnodup hnew)
    generalize hvisit : n.visit _ (i.inputs.map (·.driver)) done = visited at hdrivers ⊢
    cases hdrivers with
    | reported hrun => exact .reported hrun
    | resumed hf hrun =>
      rw [hrun]
      exact ihrest _ below rfl (hf.leave hi)

/-- The traversal of the roots that are left among some ids ends as the recursion over these ids
says. -/
theorem continues_roots [Machine] (h : n.instances.mapM Component.ofInstance = .ok components)
    {ids fresh finished : List Index} {done : List Instance}
    (hf : n.Follows (Schedule.roots components) fresh [] finished done)
    (hids : fresh = (ids.filter (Schedule.isCombinational components)).filter (isFresh [] done)) :
    n.Continues (Schedule.roots components) [] (fun _ finished => .ok finished.reverse)
      (run (Schedule.drivers components) fresh [] finished) (n.visit [] ids done) := by
  have hnodup := (Schedule.isGraph (nodup_numbers h)).nodup
  generalize hpath : [] = path at hf hids ⊢
  fun_induction visit n path ids done generalizing fresh finished with
  | case1 path done =>
    subst hpath hids
    exact .resumed hf (by rw [List.filter_nil, List.filter_nil, run])
  | case2 path done id rest hi ih =>
    rw [List.filter_cons_of_neg (isCombinational_of_none h hi)] at hids
    exact ih hpath hf hids
  | case3 path done id rest i hi hskip ih =>
    have hkind := isCombinational_eq h hi
    by_cases hcombinational : i.isCombinational = true
    · have hdone : id.value ∈ numbersOf done := by simpa [hcombinational] using hskip
      have hstale : ¬isFresh path done id = true := by simp [isFresh, entered, hdone]
      rw [List.filter_cons_of_pos (hkind.trans hcombinational),
        List.filter_cons_of_neg hstale] at hids
      exact ih hpath hf hids
    · rw [List.filter_cons_of_neg (by rwa [hkind])] at hids
      exact ih hpath hf hids
  | case4 path done id rest i hi hskip hid =>
    subst hpath
    cases hid
  | case5 path done id rest i hi hskip hid _ ihrest =>
    obtain ⟨hstateless, hundone⟩ := not_or.1 hskip
    have hcombinational : i.isCombinational = true := eq_true_of_ne_false hstateless
    have hkind := (isCombinational_eq h hi).trans hcombinational
    have hnew : id.value ∉ entered path done := by simp [entered, hid, hundone]
    have hstart : isFresh path done id = true := decide_eq_true hnew
    subst hpath
    rw [List.filter_cons_of_pos hkind, List.filter_cons_of_pos hstart] at hids
    have henter := hf.enter hnodup hnew
    have hfirst := hf.fresh
    have hself : same id id = true := beq_self_eq_true id.value
    rw [hids, List.eraseP_cons_of_pos hself] at henter
    rw [hids] at hfirst ⊢
    rw [run_root, drivers_eq_filter h hi hcombinational]
    have hdrivers := continues_frame h [] (i.inputs.map (·.driver)) henter
    rw [List.map_nil] at hdrivers
    generalize hvisit : n.visit [id] (i.inputs.map (·.driver)) done = visited at hdrivers ⊢
    cases hdrivers with
    | reported hrun => exact .reported hrun
    | @resumed fresh' finished' done' hf' hrun =>
      rw [hrun]
      have hleave := hf'.leave hi
      have hstale : ¬isFresh [] (done' ++ [i]) id = true := by
        simp [isFresh, entered, numbersOf_concat, (find?_eq_some_iff.1 hi).2]
      have hsub : done ⊆ done' ++ [i] :=
        ((visit_isPrefix hvisit).trans (List.prefix_append ..)).subset
      refine ihrest done' rfl hleave ?_
      -- of the nodes that were left, the root and all that became finished with it are gone
      rw [hleave.fresh, ← filter_isFresh hsub, ← hfirst, List.filter_cons_of_neg hstale,
        filter_isFresh hsub]

/-! ### The schedule -/

private theorem mapM_ofInstance [Machine]
    (h : n.instances.mapM Component.ofInstance = .ok components)
    {ids : List Index} {done : List Instance} (hids : values ids = numbersOf done)
    (hmembers : ∀ i ∈ done, i ∈ n.instances) :
    done.mapM Component.ofInstance = .ok (ids.filterMap (Schedule.find? components)) := by
  rw [mapM_eq_ok]
  induction done generalizing ids with
  | nil =>
    obtain rfl := List.map_eq_nil_iff.1 hids
    rfl
  | cons i rest ih =>
    obtain ⟨id, later, rfl, hid, hlater⟩ := List.map_eq_cons_iff.1 hids
    obtain ⟨c, hic, hc⟩ := find?_component h
      (find?_eq_some_iff.2 ⟨hmembers i List.mem_cons_self, hid.symm⟩)
    rw [List.map_cons, hic, List.filterMap_cons_some hc, List.map_cons,
      ih hlater fun j hj => hmembers j (List.mem_cons_of_mem i hj)]

/-- A netlist that passes its checks is scheduled in depth-first post-order: the recursion and the
schedule give the same combinational instances in the same order, or report the same cycle. -/
theorem schedule_eq_postOrder [Machine] (n : Netlist) (hcheck : n.check = .ok ())
    (hinstances : ∀ i ∈ n.instances, ∃ c, Component.ofInstance i = .ok c) :
    (∀ order, n.postOrder = .ok order →
      ∃ s, n.schedule = .ok s ∧ order.mapM Component.ofInstance = .ok s.combinational) ∧
    ∀ cycle, n.postOrder = .error cycle → n.schedule = .error (.cycle cycle) := by
  obtain ⟨components, h⟩ := exists_mapM_ok hinstances
  have hall : Schedule.roots components = ((n.instances.map (·.id)).filter
      (Schedule.isCombinational components)).filter (isFresh [] []) := by
    rw [← roots_eq_filter h]
    exact (List.filter_eq_self.2 fun _ _ => rfl).symm
  have hcontinues := continues_roots h (.initial n _) hall
  rw [schedule_eq hcheck h, Schedule.ofComponents_eq, order, postOrder]
  constructor
  · intro done hdone
    rw [hdone] at hcontinues
    cases hcontinues with
    | @resumed _ finished _ hf hrun =>
      have hids : values finished.reverse = numbersOf done := by
        rw [values_reverse, hf.finished, List.reverse_reverse]
      rw [hrun]
      exact ⟨_, rfl, mapM_ofInstance h hids hf.members⟩
  · intro cycle hcycle
    rw [hcycle] at hcontinues
    cases hcontinues with
    | reported hrun =>
      rw [hrun]
      rfl

/-- A gate that reads a constant both through an inverter and directly. -/
def forkGate : Instance :=
  ⟨.number 0, "xor2", [], [⟨.number 1, .number 0⟩, ⟨.number 2, .number 0⟩], .number 1⟩

/-- The inverter between the two. -/
def forkInverter : Instance := ⟨.number 1, "inv", [], [⟨.number 2, .number 0⟩], .number 1⟩

/-- The constant. -/
def forkConstant : Instance := ⟨.number 2, "high", [], [], .number 1⟩

/-- The netlist of these three, each with a smaller id than its drivers. -/
def fork : Netlist :=
  withFlag [forkGate, forkInverter, forkConstant] ⟨.number 0, .number 0⟩ (by decide)

open Desktop in
/-- A driver that is shared comes once, and before all that read it. -/
theorem fork_postOrder :
    fork.check = .ok () ∧ (∀ i ∈ fork.instances, ∃ c, Component.ofInstance i = .ok c) ∧
      fork.postOrder = .ok [forkConstant, forkInverter, forkGate] ∧
      ∃ s, fork.schedule = .ok s ∧
        [forkConstant, forkInverter, forkGate].mapM Component.ofInstance =
          .ok s.combinational := by
  have hcheck : fork.check = .ok () := rfl
  have hinstances : ∀ i ∈ fork.instances, ∃ c, Component.ofInstance i = .ok c := by
    intro i hi
    simp only [fork, instances_withFlag, List.mem_cons, List.not_mem_nil, or_false] at hi
    rcases hi with rfl | rfl | rfl <;> exact ⟨_, rfl⟩
  have hconstant : fork.visit [.number 1, .number 0] [.number 2] [] = .ok [forkConstant] :=
    (visit_enter rfl rfl (by decide) (by decide) visit_nil).trans visit_nil
  have hinverter : fork.visit [.number 0] [.number 1, .number 2] [] =
      .ok [forkConstant, forkInverter] :=
    (visit_enter rfl rfl (by decide) (by decide) hconstant).trans
      ((visit_pass rfl (.inr (by decide))).trans visit_nil)
  have hgate : fork.visit [] [.number 0, .number 1, .number 2] [] =
      .ok [forkConstant, forkInverter, forkGate] :=
    (visit_enter rfl rfl (by decide) (by decide) hinverter).trans
      ((visit_pass rfl (.inr (by decide))).trans
        ((visit_pass rfl (.inr (by decide))).trans visit_nil))
  exact ⟨hcheck, hinstances, hgate, (schedule_eq_postOrder fork hcheck hinstances).1 _ hgate⟩

end Netlist

end Latchwork
