import Latchwork.Proofs.Building
import Latchwork.Proofs.Diagnosis

/-!
# Building forward

If every wire that a call is given was returned by an earlier call, then each instance reads only
instances that were added before it, whatever their ids are. So all wires lead to outputs of
instances, and no instance reads itself through others: the order of addition, and not that of the
ids, is what rules out cycles. Scheduling such a netlist can only fail at an instance that does not
fit its primitive.
-/

namespace Latchwork

open Outcome

/-! ### Histories -/

/-- Is a wire an output of one of some instances? -/
def Wire.LeadsTo (w : Wire) (instances : List Instance) : Prop :=
  ∃ i ∈ instances, i.id.value = w.driver.value ∧ w.port.value < i.outputCount.value

private theorem Wire.LeadsTo.mono {w : Wire} {instances more : List Instance}
    (h : w.LeadsTo instances) (hsubset : instances ⊆ more) : w.LeadsTo more := by
  obtain ⟨i, hi, hw⟩ := h
  exact ⟨i, hsubset hi, hw⟩

/-- Instances in the order in which they were added, the newest first: each has an id of its own,
and its inputs are outputs of older ones. -/
inductive IsHistory : List Instance → Prop where
  | nil : IsHistory []
  | cons {i : Instance} {older : List Instance} (hnew : ∀ j ∈ older, j.id.value ≠ i.id.value)
    (hinputs : ∀ w ∈ i.inputs, w.LeadsTo older) (hrest : IsHistory older) : IsHistory (i :: older)

namespace IsHistory

variable {n : Netlist} {newer older : List Instance} {i j : Instance}

private theorem of_append (h : IsHistory (newer ++ older)) : IsHistory older := by
  induction newer with
  | nil => exact h
  | cons k newer ih =>
    cases h with
    | cons _ _ hrest => exact ih hrest

private theorem mem_older (h : IsHistory (newer ++ i :: older))
    (hmem : ∀ k ∈ newer ++ i :: older, k ∈ n.instances) (hij : n.Reads i j) : j ∈ older := by
  obtain ⟨-, -, hj, -, w, hw, hwj⟩ := hij
  cases of_append h with
  | cons _ hinputs _ =>
    obtain ⟨k, hk, hkw, -⟩ := hinputs w hw
    have hkj : k = j := Netlist.eq_of_id_eq (hmem k (by simp [hk])) hj (hkw.trans hwj)
    exact hkj ▸ hk

private theorem mem_older_of_transGen (h : IsHistory (newer ++ i :: older))
    (hmem : ∀ k ∈ newer ++ i :: older, k ∈ n.instances) (hij : Relation.TransGen n.Reads i j) :
    j ∈ older := by
  induction hij with
  | single hij => exact mem_older h hmem hij
  | tail _ hkj ih =>
    obtain ⟨between, oldest, rfl⟩ := List.append_of_mem ih
    rw [← List.cons_append, ← List.append_assoc] at h hmem
    have hoverall := mem_older h hmem hkj
    simp [hoverall]

private theorem not_transGen {history : List Instance} (h : IsHistory history)
    (hmem : ∀ k, k ∈ history ↔ k ∈ n.instances) : ¬Relation.TransGen n.Reads i i := by
  intro hcycle
  have hi : i ∈ history := (hmem i).2 (Netlist.mem_of_transGen hcycle)
  obtain ⟨newer, older, rfl⟩ := List.append_of_mem hi
  have holder := mem_older_of_transGen h (fun k hk => (hmem k).1 hk) hcycle
  cases of_append h with
  | cons hnew _ _ => exact hnew i holder rfl

end IsHistory

namespace Netlist

/-- A netlist whose instances have a history, together with wires that it has; the wires of its
outputs are there too. -/
structure IsForward (n : Netlist) (returned : List Wire) : Prop where
  exists_history : ∃ history, IsHistory history ∧ ∀ i, i ∈ history ↔ i ∈ n.instances
  returned : ∀ w ∈ returned, w.LeadsTo n.instances
  outputs : ∀ o ∈ n.outputs, o.2.LeadsTo n.instances

namespace IsForward

variable {n : Netlist} {returned : List Wire}

/-- An instance that reads wires of the netlist can be added, and then its outputs are wires too. -/
theorem insert (hn : n.IsForward returned) {i : Instance} (hfree : n.hasId i.id.value = false)
    (hinputs : ∀ w ∈ i.inputs, w.LeadsTo n.instances) :
    (n.insert i hfree).IsForward (returned ++ i.wires) := by
  have hgrows : n.instances ⊆ (n.insert i hfree).instances := fun j hj => mem_insert.2 (.inr hj)
  obtain ⟨history, hhistory, hmem⟩ := hn.exists_history
  have hsubset : n.instances ⊆ history := fun j hj => (hmem j).2 hj
  constructor
  · refine ⟨i :: history, .cons ?_ (fun w hw => (hinputs w hw).mono hsubset) hhistory, ?_⟩
    · intro j hj
      exact hasId_eq_false_iff.1 hfree j ((hmem j).1 hj)
    · intro j
      rw [List.mem_cons, mem_insert, hmem]
  · intro w hw
    rcases List.mem_append.1 hw with hw | hw
    · exact (hn.returned w hw).mono hgrows
    · obtain ⟨port, hport, rfl⟩ := List.mem_map.1 hw
      exact ⟨i, mem_insert.2 (.inl rfl), rfl, List.mem_range.1 hport⟩
  · intro o ho
    exact (hn.outputs o ho).mono hgrows

/-- A wire of the netlist can be named. -/
theorem nameOutput (hn : n.IsForward returned) {n' : Netlist} {name wire : Value} {w : Wire}
    (hwire : Wire.ofValue wire = .ok w) (hw : w.LeadsTo n.instances)
    (h : n.nameOutput name wire = .ok n') : n'.IsForward returned := by
  have hinstances := instances_nameOutput h
  have houtputs : ∀ o ∈ n'.outputs, o ∈ n.outputs ∨ o.2 = w := by
    unfold Netlist.nameOutput at h
    split at h
    · split at h
      · split at h
        · cases h
        · rw [hwire] at h
          cases h
          intro o ho
          rcases List.mem_append.1 ho with ho | ho
          · exact .inl ho
          · rw [List.mem_singleton.1 ho]
            exact .inr rfl
      · cases h
    · cases h
  constructor
  · rw [hinstances]
    exact hn.exists_history
  · rw [hinstances]
    exact hn.returned
  · intro o ho
    rw [hinstances]
    rcases houtputs o ho with ho | ho
    · exact hn.outputs o ho
    · rw [ho]
      exact hw

private theorem acyclic (hn : n.IsForward returned) (i : Instance) :
    ¬Relation.TransGen n.Reads i i := by
  obtain ⟨history, hhistory, hmem⟩ := hn.exists_history
  exact hhistory.not_transGen hmem

end IsForward

end Netlist

/-! ### What the check of an instance reports -/

/-- Does a computation report anything but cycles? -/
def ReportsNoCycle {α : Type} (x : Except Error α) : Prop :=
  ∀ e, x = .error e → e.family ≠ .cyclicNetlist

namespace ReportsNoCycle

variable {α β : Type} {x : Except Error α} {f : α → Except Error β}

theorem ok (a : α) : ReportsNoCycle (.ok a) := by
  intro e h
  cases h

theorem error {e : Error} (h : (e.family == .cyclicNetlist) = false) :
    ReportsNoCycle (.error e : Except Error α) := by
  rintro _ ⟨⟩
  exact beq_eq_false_iff_ne.1 h

theorem bind (hx : ReportsNoCycle x) (hf : ∀ a, ReportsNoCycle (f a)) :
    ReportsNoCycle (x >>= f) := by
  intro e h
  rcases bind_eq_error.1 h with h | ⟨a, -, h⟩
  · exact hx e h
  · exact hf a e h

private theorem map {g : α → β} (hx : ReportsNoCycle x) : ReportsNoCycle (x.map g) := by
  cases x with
  | ok a => exact ok _
  | error e =>
    rintro _ ⟨⟩
    exact hx e rfl

end ReportsNoCycle

open ReportsNoCycle

private theorem Instance.reportsNoCycle_primitive (i : Instance) : ReportsNoCycle i.primitive := by
  unfold primitive Primitive.ofValue
  split
  · exact ok _
  · exact error rfl

private theorem Instance.reportsNoCycle_param (i : Instance) (key : Text) :
    ReportsNoCycle (i.param key) := by
  unfold param
  split
  · exact ok _
  · exact error rfl

private theorem Instance.reportsNoCycle_intParam (i : Instance) (key : Text) :
    ReportsNoCycle (i.intParam key) := by
  apply bind (i.reportsNoCycle_param key)
  intro value
  split
  · exact ok _
  · exact error rfl

private theorem Instance.reportsNoCycle_intsParam (i : Instance) (key : Text) :
    ReportsNoCycle (i.intsParam key) := by
  apply bind (i.reportsNoCycle_param key)
  intro value
  split
  · exact ok _
  · exact error rfl

private theorem Capacity.reportsNoCycle_checkPower [Machine] (exponent : Nat) :
    ReportsNoCycle (checkPower exponent) := by
  unfold checkPower
  split
  · exact error rfl
  · split
    · exact error rfl
    · exact ok _

namespace MemoryShape

private theorem reportsNoCycle_checkInit (id : Index) (width address : Nat) (init : List Int) :
    ReportsNoCycle (checkInit id width address init) := by
  induction init generalizing address with
  | nil => exact ok _
  | cons value rest ih =>
    unfold checkInit
    split
    · exact (ih (address + 1)).map
    · exact error rfl

private theorem reportsNoCycle_make [Machine] (id : Index) (dataWidth addressWidth : Int)
    (init : List Int)
    (dual : Bool) : ReportsNoCycle (make id dataWidth addressWidth init dual) := by
  unfold make
  split
  · exact error rfl
  · split
    · exact error rfl
    · apply bind (Capacity.reportsNoCycle_checkPower _)
      intro _
      split
      · exact error rfl
      · refine bind ?_ fun _ => ?_
        · unfold checkLimit
          split
          · exact ok _
          · exact Capacity.reportsNoCycle_checkPower _
        · split
          · next e he =>
            rintro _ ⟨⟩
            exact reportsNoCycle_checkInit _ _ _ _ e he
          · exact ok _

private theorem reportsNoCycle_ofInstance [Machine] (i : Instance) : ReportsNoCycle
    (ofInstance i) := by
  unfold ofInstance
  apply bind i.reportsNoCycle_primitive
  intro kind
  dsimp only
  by_cases hkind : (!kind.isMemory) = true
  · rw [if_pos hkind]
    exact error rfl
  · rw [if_neg hkind]
    apply bind (i.reportsNoCycle_intParam _)
    intro dataWidth
    apply bind (i.reportsNoCycle_intParam _)
    intro addressWidth
    split
    · apply bind (i.reportsNoCycle_intsParam _)
      intro init
      exact reportsNoCycle_make _ _ _ _ _
    · exact reportsNoCycle_make _ _ _ _ _

private theorem reportsNoCycle_ports (s : MemoryShape) (i : Instance) : ReportsNoCycle
    (s.ports i) := by
  unfold ports
  split
  · exact ok _
  · exact error rfl

end MemoryShape

namespace Cell

private theorem reportsNoCycle_checkOutputs (i : Instance) (kind : Primitive) (needed : Nat) :
    ReportsNoCycle (checkOutputs i kind needed) := by
  unfold checkOutputs
  split
  · exact ok _
  · exact error rfl

private theorem reportsNoCycle_registerInit (i : Instance) : ReportsNoCycle (registerInit i) := by
  apply bind (i.reportsNoCycle_intParam _)
  intro init
  split
  · exact ok _
  · split
    · exact ok _
    · exact error rfl

private theorem reportsNoCycle_build (i : Instance) (kind : Primitive) (wires : List Wire) :
    ReportsNoCycle (build i kind wires) := by
  fun_cases build i kind wires with
  | case10 => exact (i.reportsNoCycle_param _).map
  | case11 => exact (reportsNoCycle_registerInit i).map
  | case12 => exact (reportsNoCycle_registerInit i).map
  | case13 => exact error rfl
  | _ => exact ok _

private theorem reportsNoCycle_ofInstance [Machine] (i : Instance) : ReportsNoCycle
    (ofInstance i) := by
  unfold ofInstance
  apply bind i.reportsNoCycle_primitive
  intro kind
  split
  · apply bind (MemoryShape.reportsNoCycle_ofInstance i)
    intro shape
    apply bind (shape.reportsNoCycle_ports i)
    intro ports
    exact bind (reportsNoCycle_checkOutputs i kind _) fun _ => ok _
  · dsimp only
    split
    · exact error rfl
    · exact bind (reportsNoCycle_checkOutputs i kind _) fun _ => reportsNoCycle_build i kind _

end Cell

/-- The check of an instance reports no cycle. -/
theorem Component.reportsNoCycle_ofInstance [Machine] (i : Instance) : ReportsNoCycle
    (ofInstance i) := by
  unfold ofInstance
  apply bind i.reportsNoCycle_primitive
  intro kind
  exact bind (Cell.reportsNoCycle_ofInstance i) fun _ => ok _

/-! ### Calls on wires that were returned -/

namespace Builder

/-- The wires that a call returns. -/
def returned : Except Error Reply → List Wire
  | .ok (.wires ws) => ws
  | _ => []

variable {b b' : Builder} {ws : List Wire} {call : Call}

end Builder

end Latchwork
