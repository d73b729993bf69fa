import Latchwork.Proofs.Acceptance

/-!
# The canonical data form

Reading data and writing what was read gives the data in canonical form: instances in ascending
order of their ids and with every member present. The canonical form stands for the same netlist and
is its own canonical form. All else is kept as given: parameters, inputs and outputs in order, and
every member that was present.
-/

namespace Latchwork

namespace Netlist

/-- The number that the data form of an instance gives as its id. -/
def formNumber (v : Value) : Nat := (formId v).natural?.getD 0

/-- The data forms of instances in ascending order of their ids. -/
def sortForms (items : List Value) : List Value :=
  items.mergeSort fun a b => decide (formNumber a ≤ formNumber b)

/-- The data of a netlist with its instances sorted and completed. -/
def canonical (v : Value) : Value :=
  .object
    [("instances", .list ((sortForms (memberItems v "instances")).map completed)),
      ("outputs", .list (memberItems v "outputs"))]

private theorem perm_sortForms (items : List Value) : (sortForms items).Perm items :=
  List.mergeSort_perm items _

private theorem pairwise_sortForms (items : List Value) :
    (sortForms items).Pairwise fun a b => formNumber a ≤ formNumber b := by
  have hsorted : (sortForms items).Pairwise fun a b =>
      decide (formNumber a ≤ formNumber b) = true := by
    apply List.pairwise_mergeSort
    · intro a b c hab hbc
      rw [decide_eq_true_eq] at hab hbc ⊢
      exact Nat.le_trans hab hbc
    · intro a b
      simpa using Nat.le_total _ _
  exact hsorted.imp of_decide_eq_true

private theorem formNumber_formOf (i : Instance) : formNumber (formOf i) = i.id.value := by
  change i.id.toValue.natural?.getD 0 = i.id.value
  rw [Value.natural?, Index.integer?_toValue]
  rfl

private theorem member?_completed {v x : Value} {key : Text} (hv : instanceSchema.Accepts v)
    (hx : v.member? key = some x) : (completed v).member? key = some x := by
  obtain ⟨-, given, rfl, hgiven⟩ := hv.members
  obtain ⟨s, hs, -⟩ := hgiven _ (Value.mem_of_member? hx)
  have hkey : key = Text.ofString s.1 := by simpa using List.find?_some hs
  have hmember := List.mem_of_find?_eq_some hs
  simp only [List.mem_cons, List.not_mem_nil, or_false] at hmember
  subst hkey
  rcases hmember with rfl | rfl | rfl | rfl | rfl
  all_goals
    simp only [completed, formId, hx]
    rfl

/-- The instances that were gathered are written in ascending order of their ids. -/
theorem Gathered.forms_eq {items : List Value} {n : Netlist} (h : Gathered items n) :
    n.instances.map formOf = (sortForms items).map completed := by
  have hperm : (n.instances.map formOf).Perm ((sortForms items).map completed) :=
    h.forms.trans ((perm_sortForms items).map completed).symm
  have hascending : (n.instances.map formOf).Pairwise fun a b => formNumber a ≤ formNumber b := by
    refine List.pairwise_map.2 (n.ascending.imp fun {i j} hlt => ?_)
    rw [formNumber_formOf, formNumber_formOf]
    exact Nat.le_of_lt hlt
  have hsorted : ((sortForms items).map completed).Pairwise fun a b =>
      formNumber a ≤ formNumber b :=
    List.pairwise_map.2 (pairwise_sortForms items)
  refine List.Perm.eq_of_pairwise ?_ hascending hsorted hperm
  -- two of the instances that have the same id are the same
  intro a b ha hb hab hba
  obtain ⟨i, hi, rfl⟩ := List.mem_map.1 ha
  obtain ⟨j, hj, rfl⟩ := List.mem_map.1 (hperm.symm.subset hb)
  rw [formNumber_formOf, formNumber_formOf] at hab hba
  rw [eq_of_id_eq hi hj (Nat.le_antisymm hab hba)]

variable {n : Netlist} {v : Value}

private theorem IsReadFrom.toValue_eq (h : n.IsReadFrom v) : n.toValue = canonical v := by
  rw [Netlist.toValue_eq, h.instances.forms_eq, h.outputs.forms]
  rfl

private theorem IsReadFrom.isCounted (h : n.IsReadFrom v) : n.IsCounted :=
  ⟨h.instances.counted, h.outputs.numbered⟩

private theorem IsReadFrom.member?_eq (h : n.IsReadFrom v) {k : String}
    (hk : k ∈ ["instances", "outputs"]) : v.member? k = some (.list (memberItems v k)) := by
  obtain ⟨x, hx⟩ := Option.isSome_iff_exists.1 (h.accepts.object.1 k hk)
  have hlist : (v.member? k).getD (.list []) = .list (memberItems v k) := by
    rcases List.mem_pair.1 hk with rfl | rfl
    · exact list_memberItems h.accepts rfl
    · exact list_memberItems h.accepts rfl
  rw [← hlist, hx]
  rfl

/-- Data that is read as a netlist is written back in canonical form: no member is lost, the
instances are sorted and completed, and the canonical form is read as a netlist with the same
instances and outputs and written as itself. -/
theorem toValue_eq_canonical (v : Value) (n : Netlist) (h : ofValue v = .ok n) :
    n.toValue = canonical v ∧
      (∀ k ∈ ["instances", "outputs"], v.member? k = some (.list (memberItems v k))) ∧
      (∀ item ∈ memberItems v "instances", ∀ key x, item.member? key = some x →
        (completed item).member? key = some x) ∧
      (∃ m, ofValue (canonical v) = .ok m ∧ m.SameAs n) ∧
      (ofValue (canonical v)).map toValue = .ok (canonical v) := by
  have hread := isReadFrom_of_ofValue h
  have hcanonical := hread.toValue_eq
  obtain ⟨m, hagain, hsame⟩ := hread.isCounted.ofValue_toValue
  rw [hcanonical] at hagain
  refine ⟨hcanonical, fun k hk => hread.member?_eq hk, ?_, ⟨m, hagain, hsame⟩, ?_⟩
  · intro item hitem key x hx
    have haccepts := accepts_of_mem_memberItems (k := "instances") hread.accepts rfl item hitem
    exact member?_completed haccepts hx
  · rw [hagain, Except.map, ← hcanonical, toValue_eq, toValue_eq, hsame.instances, hsame.outputs]

/-- The netlist that two instances in descending order are read as. -/
def descendingPair : Netlist :=
  { table :=
      [⟨.number 7, "high", [], [], .number 1⟩,
        ⟨.number 3, "inv", [("a", "1"), ("a", "0")], [⟨.number 7, .number 0⟩], .number 1⟩]
    outputs := [("done", ⟨.number 7, .number 0⟩)]
    idsDistinct := by decide
    namesDistinct := by decide
    namesIdentifiers := by decide }

theorem unsorted_canonical :
    ofValue unsorted = .ok descendingPair ∧ descendingPair.toValue = canonical unsorted ∧
      ∃ m, ofValue (canonical unsorted) = .ok m ∧ m.SameAs descendingPair := by
  have hread : ofValue unsorted = .ok descendingPair := by
    cbv
  obtain ⟨hcanonical, -, -, hagain, -⟩ := toValue_eq_canonical unsorted descendingPair hread
  exact ⟨hread, hcanonical, hagain⟩

end Netlist

end Latchwork
