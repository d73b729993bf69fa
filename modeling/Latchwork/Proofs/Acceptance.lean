import Latchwork.Proofs.Assembly
import Latchwork.Proofs.ReadOutcome

/-!
# What is accepted as a netlist

The form of the data that is read as a netlist, without the schema: which members an object can
have, what each of them holds, and that ids and names are pairwise distinct. Numbers are written as
integers and names are identifiers, which is more than the schema asks for.
-/

namespace Latchwork

open Outcome

namespace Value

private theorem exists_member? {given : List (Text × Value)} {key : Text}
    (h : key ∈ given.map Prod.fst) :
    ∃ x, (object given).member? key = some x := by
  obtain ⟨m, hm, rfl⟩ := List.mem_map.1 h
  cases hfind : given.find? (fun k => k.1 == m.1) with
  | none => simpa using List.find?_eq_none.1 hfind m hm
  | some k => exact ⟨k.2, by rw [member?, hfind]; rfl⟩

/-- Where no key is repeated, each member is found by its key. -/
theorem member?_of_mem {given : List (Text × Value)} (hdistinct : (given.map Prod.fst).Nodup)
    {m : Text × Value} (hm : m ∈ given) : (object given).member? m.1 = some m.2 := by
  have hfind : given.find? (fun k => k.1 == m.1) = some m := by
    induction given with
    | nil => cases hm
    | cons k given ih =>
      rw [List.map_cons, List.nodup_cons] at hdistinct
      rcases List.mem_cons.1 hm with rfl | hm
      · simp
      · have hne : k.1 ≠ m.1 := by
          intro heq
          apply hdistinct.1
          rw [heq]
          exact List.mem_map_of_mem hm
        rw [List.find?_cons_of_neg (by simpa using hne)]
        exact ih hdistinct.2 hm
  rw [member?, hfind]
  rfl

end Value

namespace Netlist

/-! ### The form of a netlist -/

/-- A wire: two natural numbers, both written as integers. -/
inductive IsWireForm : Value → Prop where
  | wire (driver port : Nat) : IsWireForm (.list [.int driver, .int port])

/-- A parameter: two texts. -/
inductive IsParamForm : Value → Prop where
  | param (key value : Text) : IsParamForm (.list [.text key, .text value])

/-- The members that an instance can have, with what each of them holds. -/
inductive IsInstanceMember : Text × Value → Prop where
  | id (n : Nat) : IsInstanceMember ("id", .int n)
  | kind (t : Text) : IsInstanceMember ("kind", .text t)
  | params {items : List Value} (h : ∀ x ∈ items, IsParamForm x) :
    IsInstanceMember ("params", .list items)
  | inputs {items : List Value} (h : ∀ x ∈ items, IsWireForm x) :
    IsInstanceMember ("inputs", .list items)
  | outputs (n : Nat) : IsInstanceMember ("outputs", .int n)

/-- An instance: an object with such members only, an id and a kind among them. -/
inductive IsInstanceForm : Value → Prop where
  | object {given : List (Text × Value)} (h : ∀ m ∈ given, IsInstanceMember m)
    (hid : Text.ofString "id" ∈ given.map Prod.fst)
    (hkind : Text.ofString "kind" ∈ given.map Prod.fst) : IsInstanceForm (.object given)

/-- An output: an identifier and a wire. -/
inductive IsOutputForm : Value → Prop where
  | output {name : Text} {wire : Value} (hname : name.isIdentifier = true)
    (hwire : IsWireForm wire) : IsOutputForm (.list [.text name, wire])

/-- The first element of a list. -/
def firstItem? : Value → Option Value
  | .list items => items.head?
  | _ => none

/-- A list of instances whose ids are pairwise distinct. -/
structure IsInstanceTable (items : List Value) : Prop where
  forms : ∀ x ∈ items, IsInstanceForm x
  distinct : items.Pairwise fun a b => a.member? "id" ≠ b.member? "id"

/-- A list of outputs whose names are pairwise distinct. -/
structure IsOutputTable (items : List Value) : Prop where
  forms : ∀ x ∈ items, IsOutputForm x
  distinct : items.Pairwise fun a b => firstItem? a ≠ firstItem? b

/-- A netlist: an object with a list of instances and a list of outputs, and no other members. -/
inductive IsNetlistForm : Value → Prop where
  | object {given : List (Text × Value)} {instances outputs : List Value}
    (hinstances : (Text.ofString "instances", .list instances) ∈ given)
    (houtputs : (Text.ofString "outputs", .list outputs) ∈ given)
    (hkeys : ∀ m ∈ given, m.1 = "instances" ∨ m.1 = "outputs")
    (hinstance : IsInstanceTable instances) (houtput : IsOutputTable outputs) :
    IsNetlistForm (.object given)

section Accepted

variable {v : Value}

private theorem exists_natural (hv : Json.Schema.Accepts .natural v)
    (hreal : ∀ x, ¬Json.Schema.Counts .natural v (.real x)) : ∃ n : Nat, v = .int n := by
  rcases hv.natural with h | ⟨x, k, rfl, -⟩
  · exact h
  · exact absurd (.natural _) (hreal x)

private theorem isWireForm_of_accepts (hv : wireSchema.Accepts v)
    (hreal : ∀ x, ¬wireSchema.Counts v (.real x)) : IsWireForm v := by
  obtain ⟨a, b, rfl, ha, hb⟩ := hv.pair
  obtain ⟨n, rfl⟩ := exists_natural ha fun x hx => hreal x (.first hx)
  obtain ⟨p, rfl⟩ := exists_natural hb fun x hx => hreal x (.second hx)
  exact .wire n p

/-- Accepted data of an instance has its form, if no floating-point number stands where a number is
wanted. -/
theorem isInstanceForm_of_accepts (hv : instanceSchema.Accepts v)
    (hreal : ∀ x, ¬instanceSchema.Counts v (.real x)) : IsInstanceForm v := by
  obtain ⟨hrequired, given, rfl, hgiven⟩ := hv.members
  have hhas : ∀ key ∈ ["id", "kind"], Text.ofString key ∈ given.map Prod.fst := by
    intro key hkey
    obtain ⟨x, hx⟩ := Option.isSome_iff_exists.1 (hrequired key hkey)
    exact List.mem_map.2 ⟨_, Value.mem_of_member? hx, rfl⟩
  refine .object (fun m hm => ?_) (hhas "id" (by simp)) (hhas "kind" (by simp))
  obtain ⟨s, hs, haccepts⟩ := hgiven m hm
  have hcounts : ∀ x, ¬s.2.Counts m.2 (.real x) := fun x hx => hreal x (.member hm hs hx)
  have hkey : m.1 = Text.ofString s.1 := by simpa using List.find?_some hs
  have hknown := List.mem_of_find?_eq_some hs
  obtain ⟨key, x⟩ := m
  change key = _ at hkey
  subst hkey
  simp only [List.mem_cons, List.not_mem_nil, or_false] at hknown
  rcases hknown with rfl | rfl | rfl | rfl | rfl
  · obtain ⟨n, rfl⟩ := exists_natural haccepts hcounts
    exact .id n
  · obtain ⟨t, rfl⟩ := haccepts.string
    exact .kind t
  · obtain ⟨items, rfl, hitems⟩ := haccepts.array
    refine .params fun y hy => ?_
    obtain ⟨a, b, rfl, ha, hb⟩ := (hitems y hy).pair
    obtain ⟨t, rfl⟩ := ha.string
    obtain ⟨u, rfl⟩ := hb.string
    exact .param t u
  · obtain ⟨items, rfl, hitems⟩ := haccepts.array
    refine .inputs fun y hy => ?_
    exact isWireForm_of_accepts (hitems y hy) fun z hz => hcounts z (.item hy hz)
  · obtain ⟨n, rfl⟩ := exists_natural haccepts hcounts
    exact .outputs n

/-- Where no key is repeated, data that is completed to what is written for an instance holds no
floating-point number where a number is wanted. -/
theorem not_counts_of_completed {i : Instance} (hv : v.Keyed) (h : completed v = formOf i)
    (x : Binary64) : ¬instanceSchema.Counts v (.real x) := by
  intro hcounts
  simp only [completed, formOf, formId, Value.object.injEq, List.cons.injEq, Prod.mk.injEq,
    true_and, and_true] at h
  obtain ⟨hid, -, -, hinputs, hcount⟩ := h
  unfold instanceSchema at hcounts
  generalize hx : Value.real x = y at hcounts
  cases hcounts with
  | @member _ _ given m s _ hm hs hcounts =>
    cases hv with
    | object hdistinct _ =>
      have hfound := Value.member?_of_mem hdistinct hm
      have hkey : m.1 = Text.ofString s.1 := by simpa using List.find?_some hs
      have hknown := List.mem_of_find?_eq_some hs
      rw [hkey] at hfound
      obtain ⟨key, w⟩ := m
      simp only [List.mem_cons, List.not_mem_nil, or_false] at hknown
      rcases hknown with rfl | rfl | rfl | rfl | rfl
      · cases hcounts
        rw [hfound, Option.getD_some, ← hx] at hid
        exact i.id.toValue_ne_real x hid.symm
      · cases hcounts
      · rcases hcounts with _ | ⟨-, hcounts⟩
        rcases hcounts with _ | _ | hcounts | hcounts <;> cases hcounts
      · rw [hfound, Option.getD_some] at hinputs
        subst hinputs
        rcases hcounts with _ | ⟨hw, hcounts⟩
        obtain ⟨w, -, rfl⟩ := List.mem_map.1 hw
        subst hx
        exact w.not_counts_toValue x hcounts
      · cases hcounts
        rw [hfound, Option.getD_some, ← hx] at hcount
        exact i.outputCount.toValue_ne_real x hcount.symm

end Accepted

/-! ### Data of the form is accepted -/

/-- The members of an instance with their schemas. -/
def instanceMembers : List (String × Json.Schema) :=
  [("id", .natural), ("kind", .string), ("params", .array (.pair .string .string)),
    ("inputs", .array wireSchema), ("outputs", .natural)]

private theorem IsWireForm.exists_wire {v : Value} (h : IsWireForm v) :
    ∃ w : Wire, w.IsNumbered ∧ v = w.toValue := by
  cases h with
  | wire driver port => exact ⟨⟨.number driver, .number port⟩, ⟨rfl, rfl⟩, rfl⟩

private theorem IsWireForm.passes {v : Value} (h : IsWireForm v) : wireSchema.Passes v := by
  cases h with
  | wire driver port =>
    exact Json.Schema.passes_pair (Json.Schema.passes_natural _) (Json.Schema.passes_natural _)

private theorem IsWireForm.depth_le {v : Value} (h : IsWireForm v) : v.depth ≤ 1 := by
  obtain ⟨w, -, rfl⟩ := h.exists_wire
  exact w.depth_toValue

private theorem IsWireForm.not_counts {v : Value} (h : IsWireForm v) (x : Binary64) :
    ¬wireSchema.Counts v (.real x) := by
  obtain ⟨w, -, rfl⟩ := h.exists_wire
  exact w.not_counts_toValue x

/-- A member of an instance is known to the schema, which finds no fault and no floating-point
number where a number is wanted. -/
theorem IsInstanceMember.known {m : Text × Value} (h : IsInstanceMember m) :
    ∃ s, instanceMembers.find? (fun k => m.1 == Text.ofString k.1) = some s ∧ s.2.Passes m.2 ∧
      ∀ x, ¬s.2.Counts m.2 (.real x) := by
  cases h with
  | id n =>
    refine ⟨_, rfl, Json.Schema.passes_natural n, fun x hx => ?_⟩
    cases hx
  | kind t =>
    refine ⟨_, rfl, Json.Schema.passes_string t, fun x hx => ?_⟩
    cases hx
  | params hitems =>
    refine ⟨_, rfl, Json.Schema.passes_array fun v hv => ?_, fun x hx => ?_⟩
    · cases hitems v hv
      exact Json.Schema.passes_pair (Json.Schema.passes_string _) (Json.Schema.passes_string _)
    · rcases hx with _ | ⟨-, hx⟩
      rcases hx with _ | _ | hx | hx <;> cases hx
  | inputs hitems =>
    refine ⟨_, rfl, Json.Schema.passes_array fun v hv => (hitems v hv).passes, fun x hx => ?_⟩
    rcases hx with _ | ⟨hv, hx⟩
    exact (hitems _ hv).not_counts x hx
  | outputs n =>
    refine ⟨_, rfl, Json.Schema.passes_natural n, fun x hx => ?_⟩
    cases hx

private theorem IsInstanceMember.depth_le {m : Text × Value} (h : IsInstanceMember m) :
    m.2.depth ≤ 2 := by
  cases h with
  | id n => simp [Value.depth]
  | kind t => simp [Value.depth]
  | params hitems =>
    refine Value.depth_list_le fun v hv => ?_
    cases hitems v hv
    exact Value.depth_list_le (by simp [Value.depth])
  | inputs hitems => exact Value.depth_list_le fun v hv => (hitems v hv).depth_le
  | outputs n => simp [Value.depth]

namespace IsInstanceForm

variable {v : Value}

private theorem passes (h : IsInstanceForm v) : instanceSchema.Passes v := by
  cases h with
  | @object given hgiven hid hkind =>
    refine Json.Schema.passes_object (fun key hkey => ?_) fun m hm => ?_
    · rcases List.mem_pair.1 hkey with rfl | rfl
      · exact Option.isSome_iff_exists.2 (Value.exists_member? hid)
      · exact Option.isSome_iff_exists.2 (Value.exists_member? hkind)
    · obtain ⟨s, hs, hpasses, -⟩ := (hgiven m hm).known
      exact ⟨s, hs, hpasses⟩

private theorem not_counts (h : IsInstanceForm v) (x : Binary64) : ¬instanceSchema.Counts v
    (.real x) := by
  intro hx
  cases h with
  | @object given hgiven hid hkind =>
    rcases hx with _ | _ | _ | _ | ⟨hm, hs, hx⟩
    obtain ⟨s, hs', -, hreal⟩ := (hgiven _ hm).known
    cases hs.symm.trans hs'
    exact hreal x hx

private theorem depth_le (h : IsInstanceForm v) : v.depth ≤ 3 := by
  cases h with
  | object hgiven => exact Value.depth_object_le fun m hm => (hgiven m hm).depth_le

private theorem exists_id (h : IsInstanceForm v) : ∃ n : Nat, v.member? "id" = some (.int n) := by
  cases h with
  | @object given hgiven hid hkind =>
    obtain ⟨x, hx⟩ := Value.exists_member? hid
    generalize hkey : Text.ofString "id" = key at hx
    have hmember := hgiven _ (Value.mem_of_member? hx)
    cases hmember with
    | id n => exact ⟨n, hx⟩
    | _ => exact absurd (Text.ofString_inj.1 hkey) (by decide)

end IsInstanceForm

namespace IsOutputForm

variable {v : Value}

private theorem passes (h : IsOutputForm v) : outputSchema.Passes v := by
  cases h with
  | output hname hwire =>
    exact Json.Schema.passes_pair (Json.Schema.passes_identifier hname) hwire.passes

private theorem depth_le (h : IsOutputForm v) : v.depth ≤ 2 := by
  cases h with
  | output hname hwire =>
    refine Value.depth_list_le fun x hx => ?_
    rcases List.mem_pair.1 hx with rfl | rfl
    · simp [Value.depth]
    · exact hwire.depth_le

end IsOutputForm

/-- An instance that was gathered has the id of one of the elements. -/
theorem Gathered.exists_form {items : List Value} {n : Netlist} (h : Gathered items n)
    {j : Instance} (hj : j ∈ n.instances) : ∃ y ∈ items, formId y = j.id.toValue := by
  obtain ⟨y, hy, hform⟩ := List.mem_map.1 (h.forms.subset (List.mem_map_of_mem hj))
  exact ⟨y, hy, congrArg formId hform⟩

/-- An element has the id of one of the instances that were gathered. -/
theorem Gathered.exists_instance {items : List Value} {n : Netlist} (h : Gathered items n)
    {y : Value} (hy : y ∈ items) : ∃ j ∈ n.instances, completed y = formOf j := by
  obtain ⟨j, hj, hform⟩ := List.mem_map.1 (h.forms.symm.subset (List.mem_map_of_mem hy))
  exact ⟨j, hj, hform.symm⟩

/-- Instances with distinct ids are added one by one. -/
theorem IsInstanceTable.exists_foldlM {items : List Value} (h : IsInstanceTable items) :
    ∃ n, items.foldlM insertForm empty = .ok n := by
  have hrun : ∃ n, items.foldlM insertForm empty = .ok n ∧ Gathered items n := by
    refine foldlM_ok (P := Gathered) ⟨.refl _, fun i hi => (List.not_mem_nil hi).elim⟩ ?_
    intro before x after n hsplit hn
    have hx : IsInstanceForm x := h.forms x (by simp [hsplit])
    have haccepts : instanceSchema.Accepts x := ⟨[], hx.passes []⟩
    have heffect := formEffect n haccepts
    cases houtcome : n.insertForm x with
    | ok n' => exact ⟨n', rfl, (hn.insertForm haccepts houtcome).1⟩
    | error e =>
      rw [houtcome] at heffect
      cases heffect with
      | @taken j hj hid =>
        obtain ⟨y, hy, hyj⟩ := hn.exists_form hj
        obtain ⟨a, ha⟩ := hx.exists_id
        obtain ⟨b, hb⟩ := (h.forms y (by simp [hsplit, hy])).exists_id
        have hvalue : (formId y).natural? = some j.id.value := by
          rw [hyj, Value.natural?, Index.integer?_toValue]
        rw [formId, ha] at hid
        rw [formId, hb] at hvalue
        cases hid
        cases hvalue
        have hdistinct := h.distinct
        rw [hsplit, List.pairwise_append] at hdistinct
        exact absurd (hb.trans ha.symm) (hdistinct.2.2 y hy x (.head _))
      | refuses hcounts _ _ => exact absurd hcounts (hx.not_counts _)
  obtain ⟨n, hn, -⟩ := hrun
  exact ⟨n, hn⟩

/-- Outputs with distinct names are added one by one. -/
theorem IsOutputTable.exists_foldlM {items : List Value} (h : IsOutputTable items) {m : Netlist}
    (hempty : m.outputs = []) : ∃ n, items.foldlM nameOutputForm m = .ok n := by
  have hrun : ∃ n, items.foldlM nameOutputForm m = .ok n ∧ Named items n := by
    refine foldlM_ok (P := Named) ⟨by rw [hempty]; rfl, by simp [hempty]⟩ ?_
    intro before x after n hsplit hn
    have hx : IsOutputForm x := h.forms x (by simp [hsplit])
    have haccepts : outputSchema.Accepts x := ⟨[], hx.passes []⟩
    have heffect := outputEffect n haccepts
    cases houtcome : n.nameOutputForm x with
    | ok n' => exact ⟨n', rfl, (hn.nameOutputForm haccepts houtcome).1⟩
    | error e =>
      rw [houtcome] at heffect
      cases heffect with
      | notIdentifier hform hname =>
        rw [hform] at hx
        cases hx with
        | output hidentifier _ =>
          rw [hname] at hidentifier
          cases hidentifier
      | @defined name wire hform hdefined =>
        obtain ⟨o, ho, rfl⟩ := List.mem_map.1 hdefined
        have hy : outputForm o ∈ before := hn.forms ▸ List.mem_map_of_mem ho
        have hdistinct := h.distinct
        rw [hsplit, List.pairwise_append] at hdistinct
        refine absurd ?_ (hdistinct.2.2 _ hy x (.head _))
        rw [hform]
        rfl
      | refuses hform _ _ hcounts _ =>
        rw [hform] at hx
        cases hx with
        | output _ hwire => exact absurd hcounts (hwire.not_counts _)
  obtain ⟨n, hn, -⟩ := hrun
  exact ⟨n, hn⟩

/-- Instances that were gathered have distinct ids, and their data has the form. -/
theorem Gathered.isInstanceTable {items : List Value} {n : Netlist} (h : Gathered items n)
    (haccepts : ∀ x ∈ items, instanceSchema.Accepts x) (hkeyed : ∀ x ∈ items, x.Keyed) :
    IsInstanceTable items := by
  constructor
  · intro x hx
    obtain ⟨i, -, hi⟩ := h.exists_instance hx
    exact isInstanceForm_of_accepts (haccepts x hx) (not_counts_of_completed (hkeyed x hx) hi)
  · -- ids that are equal as data are equal as numbers, and those of instances differ
    have hids : (items.map formId).Nodup := by
      have hperm : (n.instances.map fun i => i.id.toValue).Perm (items.map formId) := by
        have hmapped := h.forms.map formId
        rwa [List.map_map, List.map_map] at hmapped
      refine hperm.nodup_iff.1 ?_
      refine List.pairwise_map.2 (n.ascending.imp fun {i j} hlt heq => ?_)
      have hvalue := congrArg Value.integer? heq
      rw [Index.integer?_toValue, Index.integer?_toValue] at hvalue
      have hsame : i.id.value = j.id.value := Int.ofNat.inj (Option.some.inj hvalue)
      omega
    refine (List.pairwise_map.1 hids).imp fun {x y} hne heq => hne ?_
    rw [formId, formId, heq]

/-- Outputs that were named have distinct names, and their data has the form. -/
theorem Named.isOutputTable {items : List Value} {n : Netlist} (h : Named items n) :
    IsOutputTable items := by
  rw [← h.forms]
  constructor
  · intro x hx
    obtain ⟨o, ho, rfl⟩ := List.mem_map.1 hx
    refine .output (n.namesIdentifiers o ho) ?_
    rw [Wire.toValue, (h.numbered o ho).1, (h.numbered o ho).2]
    exact .wire _ _
  · refine List.pairwise_map.2 ((List.pairwise_map.1 n.namesDistinct).imp fun {o p} hne heq => ?_)
    exact hne (by simpa [firstItem?, outputForm] using heq)

/-- The elements of a member repeat no key. -/
theorem keyed_of_mem_memberItems {v : Value} (hv : v.Keyed) {key : Text} :
    ∀ x ∈ memberItems v key, x.Keyed := by
  intro x hx
  unfold memberItems at hx
  split at hx
  · next items hitems =>
    cases hv with
    | object _ hmembers =>
      cases hmembers _ (Value.mem_of_member? hitems) with
      | list hkeyed => exact hkeyed x hx
    | _ => cases hitems
  · cases hx

/-- Where no key is repeated, data of the form of a netlist is what is asked for. -/
theorem IsNetlistForm.checkForm {v : Value} (hv : v.Keyed) (h : IsNetlistForm v) :
    checkForm v = .ok () := by
  cases h with
  | @object given instances outputs hinstances houtputs hkeys hinstance houtput =>
    cases hv with
    | object hdistinct _ =>
      have hmember : ∀ m ∈ given, m = (Text.ofString "instances", .list instances) ∨
          m = (Text.ofString "outputs", .list outputs) := by
        intro m hm
        have hfound := Value.member?_of_mem hdistinct hm
        rcases hkeys m hm with hkey | hkey
        · rw [hkey, Value.member?_of_mem hdistinct hinstances] at hfound
          exact .inl (Prod.ext hkey (Option.some.inj hfound).symm)
        · rw [hkey, Value.member?_of_mem hdistinct houtputs] at hfound
          exact .inr (Prod.ext hkey (Option.some.inj hfound).symm)
      apply checkForm_of_passes
      · refine Json.Schema.passes_object (fun key hkey => ?_) fun m hm => ?_
        · rcases List.mem_pair.1 hkey with rfl | rfl
          · rw [Value.member?_of_mem hdistinct hinstances]
            rfl
          · rw [Value.member?_of_mem hdistinct houtputs]
            rfl
        · rcases hmember m hm with rfl | rfl
          · exact ⟨_, rfl, Json.Schema.passes_array fun x hx => (hinstance.forms x hx).passes⟩
          · exact ⟨_, rfl, Json.Schema.passes_array fun x hx => (houtput.forms x hx).passes⟩
      · have hdepth : (Value.object given).depth ≤ 5 := by
          refine Value.depth_object_le fun m hm => ?_
          rcases hmember m hm with rfl | rfl
          · exact Value.depth_list_le fun x hx => (hinstance.forms x hx).depth_le
          · refine Value.depth_list_le fun x hx => ?_
            exact Nat.le_trans (houtput.forms x hx).depth_le (by decide)
        exact Nat.le_trans hdepth (by decide)

/-- Data that was read has the form of a netlist, where no key is repeated. -/
theorem IsReadFrom.isNetlistForm {n : Netlist} {v : Value} (hv : v.Keyed) (h : n.IsReadFrom v) :
    IsNetlistForm v := by
  have hinstances := h.instances.isInstanceTable
    (accepts_of_mem_memberItems (k := "instances") h.accepts rfl) (keyed_of_mem_memberItems hv)
  have houtputs := h.outputs.isOutputTable
  obtain ⟨hrequired, given, rfl, hgiven⟩ := h.accepts.members
  obtain ⟨a, ha⟩ := Option.isSome_iff_exists.1 (hrequired "instances" (by simp))
  obtain ⟨b, hb⟩ := Option.isSome_iff_exists.1 (hrequired "outputs" (by simp))
  obtain ⟨instances, rfl, -⟩ := (h.accepts.object.2 (k := "instances") rfl ha).array
  obtain ⟨outputs, rfl, -⟩ := (h.accepts.object.2 (k := "outputs") rfl hb).array
  rw [memberItems, ha] at hinstances
  rw [memberItems, hb] at houtputs
  refine .object (Value.mem_of_member? ha) (Value.mem_of_member? hb) (fun m hm => ?_) hinstances
    houtputs
  obtain ⟨s, hs, -⟩ := hgiven m hm
  have hkey : m.1 = Text.ofString s.1 := by simpa using List.find?_some hs
  rcases List.mem_pair.1 (List.mem_of_find?_eq_some hs) with rfl | rfl
  · exact .inl hkey
  · exact .inr hkey

/-- Data in which no object repeats a key is read as a netlist exactly if it has the form of one. -/
theorem ofValue_ok_iff_isNetlistForm (v : Value) (hv : v.Keyed) :
    (∃ n, ofValue v = .ok n) ↔ IsNetlistForm v := by
  constructor
  · rintro ⟨n, hn⟩
    exact (isReadFrom_of_ofValue hn).isNetlistForm hv
  · intro h
    have hform := h.checkForm hv
    have haccepts := accepts_of_mem_memberItems (k := "instances") (accepts_of_checkForm hform) rfl
    cases h with
    | @object given instances outputs hinstances houtputs _ hinstance houtput =>
      cases hv with
      | object hdistinct _ =>
        rw [memberItems, Value.member?_of_mem hdistinct hinstances] at haccepts
        obtain ⟨m, hm⟩ := hinstance.exists_foldlM
        obtain ⟨n, hn⟩ := houtput.exists_foldlM (gathered_of_foldlM haccepts hm).2
        refine ⟨n, ofValue_eq_ok.2 ⟨hform, m, ?_, ?_⟩⟩
        · rwa [memberItems, Value.member?_of_mem hdistinct hinstances]
        · rwa [memberItems, Value.member?_of_mem hdistinct houtputs]

/-- Two instances in descending order, one of them without optional members, and an output. -/
def unsorted : Value :=
  .object
    [("outputs", .list [.list [.text "done", .list [.int 7, .int 0]]]),
      ("instances", .list
        [.object [("kind", .text "high"), ("id", .int 7)],
          .object [("id", .int 3), ("kind", .text "inv"),
            ("params", .list [.list [.text "a", .text "1"], .list [.text "a", .text "0"]]),
            ("inputs", .list [.list [.int 7, .int 0]]), ("outputs", .int 1)]])]

private theorem keyed_unsorted : unsorted.Keyed := by
  have hwire : (Value.list [.int 7, .int 0]).Keyed := .list (by simp [Value.Keyed.int])
  have hparam : ∀ t, (Value.list [.text "a", .text t]).Keyed := fun t =>
    .list (by simp [Value.Keyed.text])
  refine .object (by simp [Text.ofString_inj]) ?_
  simp only [List.forall_mem_cons]
  refine ⟨.list ?_, .list ?_, by simp⟩
  · simpa using Value.Keyed.list (by simp [hwire, Value.Keyed.text])
  · simp only [List.forall_mem_cons]
    refine ⟨.object (by simp [Text.ofString_inj]) ?_,
      .object (by simp [Text.ofString_inj]) ?_, by simp⟩
    · simp [Value.Keyed.text, Value.Keyed.int]
    · simp only [List.forall_mem_cons]
      refine ⟨.int _, .text _, .list ?_, .list ?_, .int _, by simp⟩
      · simp [hparam]
      · simpa using hwire

private theorem isNetlistForm_unsorted : IsNetlistForm unsorted := by
  have hwire : IsWireForm (.list [.int 7, .int 0]) := .wire 7 0
  refine .object (.tail _ (.head _)) (.head _) (by simp) ⟨?_, ?_⟩ ⟨?_, ?_⟩
  · simp only [List.forall_mem_cons]
    refine ⟨.object ?_ (by simp) (by simp), .object ?_ (by simp) (by simp), by simp⟩
    · simp only [List.forall_mem_cons]
      exact ⟨.kind _, .id 7, by simp⟩
    · simp only [List.forall_mem_cons]
      refine ⟨.id 3, .kind _, .params ?_, .inputs ?_, .outputs 1, by simp⟩
      · simp [IsParamForm.param]
      · simpa using hwire
  · simp [Value.member?]
  · simpa using IsOutputForm.output (by decide) hwire
  · simp

theorem unsorted_accepted : unsorted.Keyed ∧ ∃ n, ofValue unsorted = .ok n :=
  ⟨keyed_unsorted,
    (ofValue_ok_iff_isNetlistForm unsorted keyed_unsorted).2 isNetlistForm_unsorted⟩

end Netlist

end Latchwork
