import Latchwork.Netlist.Basic
import Mathlib

/-!
# The order of the table

A netlist keeps its instances in the order in which they were added. What goes through them by id
forgets that order: if the tables of two netlists are permutations of each other, the sorted views
are equal and every id finds the same instance.
-/

namespace Latchwork.Netlist

private theorem perm_place (i : Instance) (l : List Instance) : (place i l).Perm (i :: l) := by
  induction l with
  | nil => exact .refl _
  | cons j l ih =>
    unfold place
    split
    · exact .refl _
    · exact (ih.cons j).trans (.swap i j l)

private theorem perm_sorted (l : List Instance) : (sorted l).Perm l := by
  induction l with
  | nil => exact .refl _
  | cons i l ih => exact (perm_place i (sorted l)).trans (ih.cons i)

private theorem sorted_eq_of_perm {l l' : List Instance} (hd : (l.map fun i => i.id.value).Nodup)
    (h : l.Perm l') (hascending : l'.Pairwise fun a b => a.id.value < b.id.value) :
    sorted l = l' := by
  refine ((perm_sorted l).trans h).eq_of_pairwise ?_ (pairwise_sorted hd) hascending
  intro a b _ _ hab hba
  exact absurd hab (Nat.lt_asymm hba)

variable {m n : Netlist}

private theorem perm_instances (n : Netlist) : n.instances.Perm n.table := perm_sorted n.table

private theorem instances_eq_of_perm (h : m.table.Perm n.table) : m.instances = n.instances :=
  sorted_eq_of_perm m.idsDistinct (h.trans n.perm_instances.symm) n.ascending

theorem perm_instances_insert {i : Instance} {h : n.hasId i.id.value = false} :
    (n.insert i h).instances.Perm (n.instances ++ [i]) :=
  (n.insert i h).perm_instances.trans (n.perm_instances.symm.append_right [i])

/-- An instance that is added with an id above all others comes last. -/
theorem instances_insert_of_above {i : Instance} {hnew : n.hasId i.id.value = false}
    (h : ∀ j ∈ n.instances, j.id.value < i.id.value) :
    (n.insert i hnew).instances = n.instances ++ [i] := by
  refine sorted_eq_of_perm (n.insert i hnew).idsDistinct ?_ ?_
  · exact n.perm_instances.symm.append_right [i]
  · refine List.pairwise_append.2 ⟨n.ascending, List.pairwise_singleton _ _, fun j hj k hk => ?_⟩
    rw [List.mem_singleton.1 hk]
    exact h j hj

/-! ### Instances by id -/

/-- An id belongs to one instance only. -/
theorem eq_of_id_eq {i j : Instance} (hi : i ∈ n.instances) (hj : j ∈ n.instances)
    (h : i.id.value = j.id.value) : i = j :=
  List.inj_on_of_nodup_map n.idsDistinct (mem_instances.1 hi) (mem_instances.1 hj) h

/-- An instance is found under its id. -/
theorem find?_eq_some_iff {id : Nat} {i : Instance} :
    n.find? id = some i ↔ i ∈ n.instances ∧ i.id.value = id := by
  constructor
  · intro h
    exact ⟨mem_instances.2 (List.mem_of_find?_eq_some h), beq_iff_eq.1 (List.find?_some h :)⟩
  · rintro ⟨hi, hid⟩
    cases h : n.find? id with
    | none =>
      exact absurd (beq_iff_eq.2 hid) (List.find?_eq_none.1 h i (mem_instances.1 hi))
    | some j =>
      have hj : j.id.value = id := beq_iff_eq.1 (List.find?_some h :)
      have hmem : j ∈ n.instances := mem_instances.2 (List.mem_of_find?_eq_some h)
      rw [eq_of_id_eq hmem hi (hj.trans hid.symm)]

/-- An id is taken if an instance has it. -/
theorem hasId_eq_true_iff {id : Nat} :
    n.hasId id = true ↔ ∃ i ∈ n.instances, i.id.value = id := by
  simp [hasId, mem_instances]

theorem hasId_eq_false_iff {id : Nat} :
    n.hasId id = false ↔ ∀ i ∈ n.instances, i.id.value ≠ id := by
  simp [hasId, mem_instances]

/-! ### Netlists that differ in the order of their tables only -/

/-- Two netlists with the same instances and the same table of outputs. The order in which the
instances were added does not count. -/
structure SameAs (m n : Netlist) : Prop where
  instances : m.instances = n.instances
  outputs : m.outputs = n.outputs

namespace SameAs

/-- Netlists are the same however their tables are ordered, and only then. -/
theorem iff_perm : m.SameAs n ↔ m.table.Perm n.table ∧ m.outputs = n.outputs := by
  constructor
  · intro h
    exact ⟨m.perm_instances.symm.trans (h.instances ▸ n.perm_instances), h.outputs⟩
  · rintro ⟨htable, houtputs⟩
    exact ⟨instances_eq_of_perm htable, houtputs⟩

/-- The same instance is found under each id. -/
theorem find?_eq (h : m.SameAs n) (id : Nat) : m.find? id = n.find? id := by
  apply Option.ext
  intro i
  rw [find?_eq_some_iff, find?_eq_some_iff, h.instances]

end SameAs

end Latchwork.Netlist
