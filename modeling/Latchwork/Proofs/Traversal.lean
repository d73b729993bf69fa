import Latchwork.Traversal
import Mathlib

/-!
# Soundness of the depth-first order

A traversal that ends with an order lists every node once and each after all that it needs; one that
ends with a cycle names nodes that need each other in a circle. Since every traversal ends in one of
the two ways, there is an order exactly if there is no cycle. Nodes are compared by the numbers that
their indices stand for.
-/

namespace Latchwork.Traversal

/-- The numbers that indices stand for. -/
def values (xs : List Index) : List Nat := xs.map Index.value

@[simp] theorem values_nil : values [] = [] := rfl

@[simp] theorem values_cons (a : Index) (xs : List Index) :
    values (a :: xs) = a.value :: values xs := rfl

@[simp] theorem values_reverse (xs : List Index) : values xs.reverse = (values xs).reverse :=
  List.map_reverse

/-- Does a node need another one, however the two are spelled? -/
def Needs (needs : Index → List Index) (a b : Index) : Prop :=
  ∃ q ∈ needs a, q.value = b.value

/-- What the traversal relies on: a node has one spelling of its needs, only nodes are needed, and
no node is given twice. -/
structure IsGraph (needs : Index → List Index) (nodes : List Index) : Prop where
  respects : ∀ a b : Index, a.value = b.value → needs a = needs b
  closed : ∀ a, ∀ q ∈ needs a, q.value ∈ values nodes
  nodup : (values nodes).Nodup

/-- In a list of nodes, last first, each comes after all that it needs. -/
def Ordered (needs : Index → List Index) : List Index → Prop
  | [] => True
  | a :: earlier => (∀ q ∈ needs a, q.value ∈ values earlier) ∧ Ordered needs earlier

/-- Nodes that need each other in a circle: each needs the one before it, and the first needs the
last. -/
structure IsCycle (needs : Index → List Index) (ids : List Index) : Prop where
  nonempty : ids ≠ []
  chain : ids.IsChain fun a b => Needs needs b a
  closes : ∀ first ∈ ids.head?, ∀ last ∈ ids.getLast?, Needs needs first last

/-- The frames of a path, tip first, where the node above the first frame may be given. Whatever a
node needs is finished, is still pending, or is the node above it; and it does need that node. -/
def Linked (needs : Index → List Index) (finished : List Index) : Option Index → List Frame → Prop
  | _, [] => True
  | above, f :: below =>
    (∀ q ∈ needs f.node, q.value ∈ values finished ∨ q ∈ f.pending ∨
      ∃ a ∈ above, q.value = a.value) ∧
    (∀ q ∈ f.pending, q ∈ needs f.node) ∧
    (∀ a ∈ above, Needs needs f.node a) ∧
    Linked needs finished (some f.node) below

/-- The invariant of the traversal: every node is fresh, on the path or finished, and only one of
these; the path is linked; the finished nodes are in order. -/
structure Invariant (needs : Index → List Index) (nodes fresh : List Index) (path : List Frame)
    (finished : List Index) : Prop where
  accounted :
    (values fresh ++ values (path.map Frame.node) ++ values finished).Perm (values nodes)
  linked : Linked needs finished none path
  ordered : Ordered needs finished

variable {needs : Index → List Index} {nodes fresh finished : List Index} {path below : List Frame}
  {node p : Index} {pending : List Index}

/-! ### Paths -/

private theorem Linked.finish {above : Option Index} (a : Index)
    (h : Linked needs finished above path) :
    Linked needs (a :: finished) above path := by
  induction path generalizing above with
  | nil => trivial
  | cons f below ih =>
    obtain ⟨hall, hpending, habove, hbelow⟩ := h
    refine ⟨fun q hq => ?_, hpending, habove, ih hbelow⟩
    rcases hall q hq with hf | hrest
    · exact .inl (List.mem_cons_of_mem _ hf)
    · exact .inr hrest

private theorem Linked.leave {a : Index} (h : Linked needs finished (some a) path) :
    Linked needs (a :: finished) none path := by
  cases path with
  | nil => trivial
  | cons f below =>
    obtain ⟨hall, hpending, -, hbelow⟩ := h
    refine ⟨fun q hq => ?_, hpending, by simp, hbelow.finish a⟩
    rcases hall q hq with hf | hp | ⟨b, hb, hqb⟩
    · exact .inl (List.mem_cons_of_mem _ hf)
    · exact .inr (.inl hp)
    · cases hb
      exact .inl (by simp [hqb])

private theorem Linked.descend (h : Linked needs finished none (⟨node, p :: pending⟩ :: below)) :
    Linked needs finished (some p) (⟨node, pending⟩ :: below) := by
  obtain ⟨hall, hpending, -, hbelow⟩ := h
  refine ⟨fun q hq => ?_, fun q hq => hpending q (.tail _ hq), fun a ha => ?_, hbelow⟩
  · rcases hall q hq with hf | hp | ⟨b, hb, -⟩
    · exact .inl hf
    · rcases List.mem_cons.1 hp with rfl | hp
      · exact .inr (.inr ⟨q, rfl, rfl⟩)
      · exact .inr (.inl hp)
    · cases hb
  · cases ha
    exact ⟨p, hpending p (.head _), rfl⟩

private theorem Linked.skip (h : Linked needs finished none (⟨node, p :: pending⟩ :: below))
    (hp : p.value ∈ values finished) :
    Linked needs finished none (⟨node, pending⟩ :: below) := by
  obtain ⟨hall, hpending, -, hbelow⟩ := h.descend
  refine ⟨fun q hq => ?_, hpending, by simp, hbelow⟩
  rcases hall q hq with hf | hq | ⟨b, hb, hqb⟩
  · exact .inl hf
  · exact .inr (.inl hq)
  · cases hb
    exact .inl (hqb ▸ hp)

/-- From the tip down to a node of the path, each node is needed by the next one. -/
theorem Linked.cycleTo_spec {above : Option Index} {f : Frame}
    (h : Linked needs finished above (f :: below))
    (hp : p.value ∈ values ((f :: below).map Frame.node)) :
    (cycleTo p (f :: below)).IsChain (fun a b => Needs needs b a) ∧
      (cycleTo p (f :: below)).head? = some f.node ∧
      ∀ last ∈ (cycleTo p (f :: below)).getLast?, last.value = p.value := by
  induction below generalizing above f with
  | nil =>
    have hf : f.node.value = p.value := (List.mem_singleton.1 hp).symm
    simp [cycleTo, same, hf]
  | cons g below ih =>
    rw [cycleTo]
    by_cases hf : same f.node p = true
    · have hv : f.node.value = p.value := beq_iff_eq.1 hf
      simp [hf, hv]
    · simp only [hf, Bool.false_eq_true, ite_false]
      have hne : p.value ≠ f.node.value := fun he => hf (beq_iff_eq.2 he.symm)
      have hrest : p.value ∈ values ((g :: below).map Frame.node) := by simpa [hne] using hp
      obtain ⟨-, -, -, hbelow⟩ := h
      obtain ⟨hchain, hhead, hlast⟩ := ih hbelow hrest
      have hneeds : Needs needs g.node f.node := hbelow.2.2.1 f.node rfl
      have hne' : cycleTo p (g :: below) ≠ [] := fun he => by simp [he] at hhead
      refine ⟨List.isChain_cons.2 ⟨fun b hb => ?_, hchain⟩, rfl, fun last hl => ?_⟩
      · rw [hhead] at hb
        cases hb
        exact hneeds
      · rw [List.getLast?_cons_of_ne_nil hne'] at hl
        exact hlast last hl

private theorem Linked.isCycle_cycleTo
    (h : Linked needs finished none (⟨node, p :: pending⟩ :: below))
    (hp : p.value ∈ values (node :: below.map Frame.node)) :
    IsCycle needs (cycleTo p (⟨node, pending⟩ :: below)) := by
  obtain ⟨hchain, hhead, hlast⟩ := h.descend.cycleTo_spec hp
  have hneeds : Needs needs node p := h.descend.2.2.1 p rfl
  refine ⟨fun he => by simp [he] at hhead, hchain, fun first hf last hl => ?_⟩
  rw [hhead] at hf
  cases hf
  obtain ⟨q, hq, hqp⟩ := hneeds
  exact ⟨q, hq, hqp.trans (hlast last hl).symm⟩

/-! ### Steps of the traversal -/

/-- A fresh node is found by its number. -/
theorem any_same_iff {xs : List Index} : xs.any (same p) = true ↔ p.value ∈ values xs := by
  rw [List.any_eq_true, values, List.mem_map]
  constructor
  · rintro ⟨a, ha, hpa⟩
    exact ⟨a, ha, (beq_iff_eq.1 hpa).symm⟩
  · rintro ⟨a, ha, hap⟩
    exact ⟨a, ha, beq_iff_eq.2 hap.symm⟩

private theorem perm_eraseP_same (h : p.value ∈ values fresh) :
    (values fresh).Perm (p.value :: values (fresh.eraseP (same p))) := by
  have he : values (fresh.eraseP (same p)) = (values fresh).erase p.value := by
    rw [List.erase_eq_eraseP, values, values, List.eraseP_map]
    rfl
  rw [he]
  exact List.perm_cons_erase h

theorem Invariant.initial (needs : Index → List Index) (nodes : List Index) :
    Invariant needs nodes nodes [] [] :=
  ⟨by simp, trivial, trivial⟩

/-- A root starts a path of its own. -/
theorem Invariant.root {root : Index} {rest : List Index}
    (h : Invariant needs nodes (root :: rest) [] finished) :
    Invariant needs nodes rest [⟨root, needs root⟩] finished := by
  refine ⟨?_, ⟨fun q hq => .inr (.inl hq), fun q hq => hq, by simp, trivial⟩, h.ordered⟩
  refine List.Perm.trans ?_ h.accounted
  simp

/-- A node whose needs have all been looked at is finished. -/
theorem Invariant.leave (h : Invariant needs nodes fresh (⟨node, []⟩ :: below) finished) :
    Invariant needs nodes fresh below (node :: finished) := by
  obtain ⟨hall, -, -, hbelow⟩ := h.linked
  refine ⟨?_, hbelow.leave, fun q hq => ?_, h.ordered⟩
  · refine List.Perm.trans ?_ h.accounted
    simp only [values_cons, List.map_cons, List.append_assoc, List.cons_append]
    exact (List.perm_middle).append_left _
  · rcases hall q hq with hf | hp | ⟨a, ha, -⟩
    · exact hf
    · cases hp
    · cases ha

/-- A fresh node that is needed goes on top of the path. -/
theorem Invariant.enter
    (h : Invariant needs nodes fresh (⟨node, p :: pending⟩ :: below) finished)
    (hp : p.value ∈ values fresh) :
    Invariant needs nodes (fresh.eraseP (same p)) (⟨p, needs p⟩ :: ⟨node, pending⟩ :: below)
      finished := by
  refine ⟨?_, ⟨fun q hq => .inr (.inl hq), fun q hq => hq, by simp, h.linked.descend⟩, h.ordered⟩
  refine List.Perm.trans ?_ h.accounted
  have hperm := (perm_eraseP_same hp).symm
  simp only [values_cons, List.map_cons, List.append_assoc, List.cons_append]
  exact List.perm_middle.trans (hperm.append_right _)

/-- A needed node that is neither fresh nor on the path is finished. -/
theorem Invariant.skip (g : IsGraph needs nodes)
    (h : Invariant needs nodes fresh (⟨node, p :: pending⟩ :: below) finished)
    (hf : p.value ∉ values fresh) (hp : p.value ∉ values (node :: below.map Frame.node)) :
    Invariant needs nodes fresh (⟨node, pending⟩ :: below) finished := by
  have hneed : p ∈ needs node := h.linked.2.1 p (.head _)
  have hmem := h.accounted.mem_iff.2 (g.closed node p hneed)
  have hdone : p.value ∈ values finished := by
    rcases List.mem_append.1 hmem with hmem | hmem
    · rcases List.mem_append.1 hmem with hmem | hmem
      · exact absurd hmem hf
      · exact absurd hmem hp
    · exact hmem
  exact ⟨h.accounted, h.linked.skip hdone, h.ordered⟩

/-- What a traversal that keeps its invariant ends with: all nodes in order, or a cycle. -/
theorem run_spec (g : IsGraph needs nodes) (h : Invariant needs nodes fresh path finished) :
    match run needs fresh path finished with
    | .ok order => (values order).Perm (values nodes) ∧ Ordered needs order.reverse
    | .error ids => IsCycle needs ids := by
  -- the induction follows the calls of the traversal; each call keeps the invariant
  fun_induction run needs fresh path finished with
  | case1 finished =>
    have hperm := h.accounted
    simp only [values_nil, List.map_nil, List.nil_append] at hperm
    refine ⟨?_, by simpa using h.ordered⟩
    rw [values_reverse]
    exact (List.reverse_perm _).trans hperm
  | case2 finished root rest ih => exact ih h.root
  | case3 fresh finished node below ih => exact ih h.leave
  | case4 fresh finished node p pending below hfresh ih =>
    exact ih (h.enter (any_same_iff.1 hfresh))
  | case5 fresh finished node p pending below hfresh hpath =>
    rw [List.map_attach_eq_pmap, List.pmap_eq_map] at hpath
    rw [if_pos hpath]
    exact h.linked.isCycle_cycleTo (any_same_iff.1 hpath)
  | case6 fresh finished node p pending below hfresh hpath ih =>
    rw [List.map_attach_eq_pmap, List.pmap_eq_map] at hpath
    rw [if_neg hpath]
    exact ih (h.skip g (mt any_same_iff.2 hfresh) (mt any_same_iff.2 hpath))

/-! ### Orders and cycles -/

/-- In an order every node comes after all that it needs. -/
theorem Ordered.mem_before {before after : List Index} {a q : Index}
    (h : Ordered needs (before ++ a :: after).reverse) (hq : q ∈ needs a) :
    q.value ∈ values before := by
  rw [List.reverse_append, List.reverse_cons, List.append_assoc] at h
  generalize after.reverse = later at h
  induction later with
  | nil =>
    have hmem : q.value ∈ values before.reverse := h.1 q hq
    rwa [values_reverse, List.mem_reverse] at hmem
  | cons b later ih => exact ih h.2

private theorem Ordered.mem_earlier (g : IsGraph needs nodes) {x a b : Index} {earlier : List Index}
    (h : Ordered needs (x :: earlier)) (ha : a.value ∈ values (x :: earlier))
    (hab : Needs needs a b) : b.value ∈ values earlier := by
  obtain ⟨q, hq, hqb⟩ := hab
  induction earlier generalizing x with
  | nil =>
    have hax : a.value = x.value := List.mem_singleton.1 ha
    rw [g.respects a x hax] at hq
    exact hqb ▸ h.1 q hq
  | cons y earlier ih =>
    rcases List.mem_cons.1 ha with hax | ha
    · rw [g.respects a x hax] at hq
      exact hqb ▸ h.1 q hq
    · exact List.mem_cons_of_mem _ (ih h.2 ha)

private theorem Ordered.reached_earlier (g : IsGraph needs nodes) {x a b : Index}
    {earlier : List Index} (h : Ordered needs (x :: earlier)) (ha : a.value ∈ values (x :: earlier))
    (hab : Relation.TransGen (Needs needs) a b) : b.value ∈ values earlier := by
  induction hab with
  | single hstep => exact h.mem_earlier g ha hstep
  | tail _ hstep ih => exact h.mem_earlier g (List.mem_cons_of_mem _ ih) hstep

private theorem Ordered.not_transGen (g : IsGraph needs nodes) {xs : List Index}
    (h : Ordered needs xs)
    {a : Index} (ha : a.value ∈ values xs) : ¬Relation.TransGen (Needs needs) a a := by
  intro hcycle
  induction xs with
  | nil => cases ha
  | cons x earlier ih => exact ih h.2 (h.reached_earlier g ha hcycle)

private theorem IsCycle.transGen {ids : List Index} (h : IsCycle needs ids) :
    ∃ a, Relation.TransGen (Needs needs) a a := by
  have hback := List.relationReflTransGen_of_exists_isChain ids h.chain h.nonempty
  have hclose := h.closes _ (List.head?_eq_some_head h.nonempty) _
    (List.getLast?_eq_some_getLast h.nonempty)
  refine ⟨ids.head h.nonempty, Relation.TransGen.head' hclose ?_⟩
  rw [← Relation.reflTransGen_swap]
  exact hback

/-- Every node of a graph is listed once and after all that it needs, if an order is found. -/
theorem order_ok (g : IsGraph needs nodes) {ids : List Index} (h : order needs nodes = .ok ids) :
    (values ids).Perm (values nodes) ∧ Ordered needs ids.reverse := by
  have hspec := run_spec g (.initial needs nodes)
  rw [order] at h
  rwa [h] at hspec

/-- A cycle that is found is one. -/
theorem order_error (g : IsGraph needs nodes) {ids : List Index}
    (h : order needs nodes = .error ids) : IsCycle needs ids := by
  have hspec := run_spec g (.initial needs nodes)
  rw [order] at h
  rwa [h] at hspec

/-- No order is found exactly if some node is reached from itself. -/
theorem exists_order_error_iff (g : IsGraph needs nodes) :
    (∃ ids, order needs nodes = .error ids) ↔
      ∃ a, Relation.TransGen (Needs needs) a a := by
  constructor
  · rintro ⟨ids, h⟩
    exact (order_error g h).transGen
  · rintro ⟨a, hcycle⟩
    cases h : order needs nodes with
    | error ids => exact ⟨ids, rfl⟩
    | ok ids =>
      obtain ⟨hperm, hordered⟩ := order_ok g h
      -- a node on a cycle is needed, so it is one of the nodes that were ordered
      have hmem : a.value ∈ values nodes := by
        obtain ⟨b, -, q, hq, hqa⟩ := Relation.TransGen.tail'_iff.1 hcycle
        exact hqa ▸ g.closed b q hq
      have ha : a.value ∈ values ids.reverse := by
        rw [values_reverse, List.mem_reverse]
        exact hperm.mem_iff.2 hmem
      exact absurd hcycle (hordered.not_transGen g ha)

end Latchwork.Traversal
