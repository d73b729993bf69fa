import Latchwork.Proofs.Building
import Latchwork.Proofs.RoundTrip

/-!
# Putting accepted data together

Data that has the form of a netlist is put together by adding its instances and outputs one by one.
The schema takes a floating-point number for an index if its value is integral, and it does not look
at a line feed at the end of a name, so that adding can still fail. It does so for few reasons: an
id or a name is taken, a name is no identifier, or a floating-point number stands where the schema
asks for a natural number. Otherwise what is added is written as the data that it was added from,
once the absent members of an instance are filled in.
-/

namespace Latchwork

open Outcome

namespace Value

/-- A member that is found is one of the members. -/
theorem mem_of_member? {given : List (Text × Value)} {key : Text} {x : Value}
    (h : (object given).member? key = some x) : (key, x) ∈ given := by
  obtain ⟨m, hm, rfl⟩ := Option.map_eq_some_iff.1 h
  have hkey : m.1 = key := by simpa using List.find?_some hm
  rw [← hkey]
  exact List.mem_of_find?_eq_some hm

end Value

/-- A floating-point number that is an integer and not negative equals a natural number. -/
theorem Binary64.exists_natural {x : Binary64} {z : Int} (hz : x.toInt? = some z)
    (hx : x.isNegative = false) : ∃ k : Nat, z = k := by
  unfold toInt? at hz
  split at hz
  · next negative mantissa exponent =>
    dsimp only at hz
    split at hz
    · cases negative with
      | false =>
        cases hz
        exact ⟨_, rfl⟩
      | true =>
        have hzero : mantissa = 0 := by simpa [isNegative] using hx
        subst hzero
        cases hz
        exact ⟨0, by simp⟩
    · cases hz
  · cases hz

/-! ### Where numbers are wanted -/

namespace Json.Schema

/-- The values that stand where a schema asks for a natural number. -/
inductive Counts : Schema → Value → Value → Prop where
  | natural (v : Value) : Counts .natural v v
  | item {s : Schema} {items : List Value} {v x : Value} (hv : v ∈ items) (h : Counts s v x) :
    Counts (.array s) (.list items) x
  | first {a b : Schema} {v x : Value} {rest : List Value} (h : Counts a v x) :
    Counts (.pair a b) (.list (v :: rest)) x
  | second {a b : Schema} {u v x : Value} {rest : List Value} (h : Counts b v x) :
    Counts (.pair a b) (.list (u :: v :: rest)) x
  | member {members : List (String × Schema)} {required : List String}
    {given : List (Text × Value)} {m : Text × Value} {s : String × Schema} {x : Value}
    (hm : m ∈ given) (hs : members.find? (fun k => m.1 == Text.ofString k.1) = some s)
    (h : Counts s.2 m.2 x) : Counts (.object members required) (.object given) x

/-- What is accepted as a natural number is one, or a floating-point number that equals one. -/
theorem Accepts.natural {v : Value} (h : Accepts .natural v) :
    (∃ n : Nat, v = .int n) ∨ ∃ (x : Binary64) (k : Nat), v = .real x ∧ x.toInt? = some k := by
  obtain ⟨path, h⟩ := h
  rw [check] at h
  obtain ⟨integral, hintegral, h⟩ := bind_eq_ok.1 h
  obtain ⟨hkind, hminimum⟩ := List.append_eq_nil_iff.1 (Except.ok.inj h)
  have hsign : isBelowZero v = false := by simpa [violationIf] using hminimum
  have htrue : integral = true := by simpa [violationIf] using hkind
  subst htrue
  cases v with
  | int z =>
    have hz : 0 ≤ z := by simpa [isBelowZero] using hsign
    exact .inl ⟨z.toNat, by rw [Int.toNat_of_nonneg hz]⟩
  | real x =>
    have hsome : x.toInt?.isSome = true := by
      cases x with
      | nan => cases hintegral
      | infinite _ => cases hintegral
      | finite negative mantissa exponent => exact Except.ok.inj hintegral
    obtain ⟨z, hz⟩ := Option.isSome_iff_exists.1 hsome
    obtain ⟨k, rfl⟩ := Binary64.exists_natural hz hsign
    exact .inr ⟨x, k, rfl, hz⟩
  | _ => cases hintegral

/-- What is accepted as a string is a text. -/
theorem Accepts.string {v : Value} (h : Accepts .string v) : ∃ t, v = .text t := by
  obtain ⟨path, h⟩ := h
  rw [check] at h
  cases v with
  | text t => exact ⟨t, rfl⟩
  | _ => cases h

private theorem Accepts.identifier {v : Value} (h : Accepts .identifier v) : ∃ t, v = .text t := by
  obtain ⟨path, h⟩ := h
  unfold check at h
  split at h
  · next t => exact ⟨t, rfl⟩
  · cases h

private theorem Counts.of_member? {members : List (String × Schema)} {required : List String}
    {v y x : Value} {k : String} {s : Schema}
    (hk : members.find? (fun m => Text.ofString k == Text.ofString m.1) = some (k, s))
    (hy : v.member? (Text.ofString k) = some y) (h : Counts s y x) :
    Counts (.object members required) v x := by
  cases v with
  | object given => exact .member (Value.mem_of_member? hy) hk h
  | _ => cases hy

end Json.Schema

/-- An error about a floating-point number in place of an index. -/
inductive Error.NamesReal (x : Binary64) : Error → Prop where
  | instanceId : NamesReal x (.instanceId (.real x))
  | portIndex : NamesReal x (.portIndex (.real x))
  | outputCount : NamesReal x (.outputCount (.real x))

/-- An index is no floating-point number. -/
theorem Index.toValue_ne_real (i : Index) (x : Binary64) : i.toValue ≠ .real x := by
  cases i <;> simp [toValue]

/-- No floating-point number stands in a wire that was written as data. -/
theorem Wire.not_counts_toValue (w : Wire) (x : Binary64) :
    ¬Netlist.wireSchema.Counts w.toValue (.real x) := by
  intro h
  unfold Netlist.wireSchema toValue at h
  generalize hx : Value.real x = y at h
  cases h with
  | first h =>
    cases h
    exact w.driver.toValue_ne_real x hx.symm
  | second h =>
    cases h
    exact w.port.toValue_ne_real x hx.symm

private theorem Wire.ofValue_cases {v : Value} (hv : Netlist.wireSchema.Accepts v) :
    (∃ w : Wire, w.IsNumbered ∧ v = w.toValue) ∨
      ∃ x e, Netlist.wireSchema.Counts v (.real x) ∧ Error.NamesReal x e ∧
        Wire.ofValue v = .error e := by
  obtain ⟨a, b, rfl, ha, hb⟩ := hv.pair
  rcases ha.natural with ⟨n, rfl⟩ | ⟨x, k, rfl, -⟩
  · rcases hb.natural with ⟨p, rfl⟩ | ⟨x, k, rfl, -⟩
    · exact .inl ⟨⟨.number n, .number p⟩, ⟨rfl, rfl⟩, rfl⟩
    · exact .inr ⟨x, _, .second (.natural _), .portIndex, rfl⟩
  · exact .inr ⟨x, _, .first (.natural _), .instanceId, rfl⟩

/-- The same for several wires: the first that cannot be made stops the pass. -/
theorem Instance.wiresOf_cases {items : List Value}
    (h : ∀ v ∈ items, Netlist.wireSchema.Accepts v) :
    (∃ ws : List Wire, (∀ w ∈ ws, w.IsNumbered) ∧ items = ws.map Wire.toValue) ∨
      ∃ v ∈ items, ∃ x e, Netlist.wireSchema.Counts v (.real x) ∧ Error.NamesReal x e ∧
        wiresOf (.list items) = .error e := by
  change _ ∨ ∃ v ∈ items, ∃ x e, _ ∧ _ ∧ items.mapM Wire.ofValue = .error e
  induction items with
  | nil => exact .inl ⟨[], by simp, rfl⟩
  | cons v items ih =>
    rcases Wire.ofValue_cases (h v (.head _)) with ⟨w, hw, rfl⟩ | ⟨x, e, hx, he, herror⟩
    · rcases ih fun u hu => h u (.tail _ hu) with ⟨ws, hws, rfl⟩ | ⟨u, hu, x, e, hx, he, herror⟩
      · refine .inl ⟨w :: ws, ?_, rfl⟩
        simpa [hw] using hws
      · refine .inr ⟨u, .tail _ hu, x, e, hx, he, ?_⟩
        rw [List.mapM_cons, Wire.ofValue_toValue, herror]
        rfl
    · refine .inr ⟨v, .head _, x, e, hx, he, ?_⟩
      rw [List.mapM_cons, herror]
      rfl

namespace Netlist

/-! ### Adding what was accepted -/

/-- The data form of an instance with every member present; those that are absent get their
defaults. -/
def completed (v : Value) : Value :=
  .object
    [("id", formId v),
      ("kind", (v.member? "kind").getD .null),
      ("params", (v.member? "params").getD (.list [])),
      ("inputs", (v.member? "inputs").getD (.list [])),
      ("outputs", (v.member? "outputs").getD (.int 1))]

/-- A member that holds a list holds its elements; an absent one has none. -/
theorem list_memberItems {members : List (String × Json.Schema)} {required : List String}
    {v : Value} (hv : Json.Schema.Accepts (.object members required) v) {k : String}
    {s : Json.Schema}
    (hk : members.find? (fun m => Text.ofString k == Text.ofString m.1) = some (k, .array s)) :
    (v.member? (Text.ofString k)).getD (.list []) = .list (memberItems v (Text.ofString k)) := by
  unfold memberItems
  cases hm : v.member? (Text.ofString k) with
  | none => rfl
  | some x =>
    obtain ⟨values, rfl, -⟩ := (hv.object.2 hk hm).array
    rfl

private theorem counts_of_mem_memberItems {members : List (String × Json.Schema)}
    {required : List String} {v item x : Value} {k : String} {s : Json.Schema}
    (hk : members.find? (fun m => Text.ofString k == Text.ofString m.1) = some (k, .array s))
    (hitem : item ∈ memberItems v (Text.ofString k)) (h : s.Counts item x) :
    Json.Schema.Counts (.object members required) v x := by
  unfold memberItems at hitem
  split at hitem
  · next items hitems => exact .of_member? hk hitems (.item hitem h)
  · cases hitem

private theorem exists_params {items : List Value}
    (h : ∀ v ∈ items, Json.Schema.Accepts (.pair .string .string) v) :
    ∃ ps : List (Text × Text), items = ps.map fun p => .list [.text p.1, .text p.2] := by
  induction items with
  | nil => exact ⟨[], rfl⟩
  | cons v items ih =>
    obtain ⟨ps, rfl⟩ := ih fun u hu => h u (.tail _ hu)
    obtain ⟨a, b, rfl, ha, hb⟩ := (h v (.head _)).pair
    obtain ⟨key, rfl⟩ := ha.string
    obtain ⟨value, rfl⟩ := hb.string
    exact ⟨(key, value) :: ps, rfl⟩

private theorem formId_cases {v : Value} (hv : instanceSchema.Accepts v) :
    (∃ n : Nat, formId v = .int n) ∨
      ∃ x, formId v = .real x ∧ instanceSchema.Counts v (.real x) := by
  obtain ⟨id, hid⟩ := Option.isSome_iff_exists.1 (hv.object.1 "id" (by simp))
  rw [formId, hid, Option.getD_some]
  rcases (hv.object.2 (k := "id") rfl hid).natural with ⟨n, rfl⟩ | ⟨x, k, rfl, -⟩
  · exact .inl ⟨n, rfl⟩
  · exact .inr ⟨x, rfl, .of_member? (k := "id") rfl hid (.natural _)⟩

private theorem outputCount_cases {v : Value} (hv : instanceSchema.Accepts v) :
    (∃ c : Nat, (v.member? "outputs").getD (.int 1) = .int c) ∨
      ∃ x, (v.member? "outputs").getD (.int 1) = .real x ∧ instanceSchema.Counts v (.real x) := by
  cases hm : v.member? (Text.ofString "outputs") with
  | none => exact .inl ⟨1, rfl⟩
  | some y =>
    rcases (hv.object.2 (k := "outputs") rfl hm).natural with ⟨c, rfl⟩ | ⟨x, k, rfl, -⟩
    · exact .inl ⟨c, rfl⟩
    · exact .inr ⟨x, rfl, .of_member? (k := "outputs") rfl hm (.natural _)⟩

/-- Accepted data of an instance is that of an instance whose indices are numbers, once it is
completed. If it is not, making the instance fails at a floating-point number. -/
theorem completed_cases {v : Value} (hv : instanceSchema.Accepts v) :
    (∃ i : Instance, i.IsCounted ∧ completed v = formOf i ∧
      Instance.make (formId v) (formData v) = .ok i) ∨
      ∃ x e, instanceSchema.Counts v (.real x) ∧ Error.NamesReal x e ∧
        Instance.make (formId v) (formData v) = .error e := by
  obtain ⟨kind, hkind⟩ := Option.isSome_iff_exists.1 (hv.object.1 "kind" (by simp))
  obtain ⟨kind, rfl⟩ := (hv.object.2 (k := "kind") rfl hkind).string
  obtain ⟨params, hparams⟩ := exists_params (accepts_of_mem_memberItems (k := "params") hv rfl)
  rcases formId_cases hv with ⟨n, hid⟩ | ⟨x, hid, hx⟩
  · rcases outputCount_cases hv with ⟨c, hc⟩ | ⟨x, hc, hx⟩
    · rcases Instance.wiresOf_cases (accepts_of_mem_memberItems (k := "inputs") hv rfl) with
        ⟨ws, hws, hinputs⟩ | ⟨w, hw, x, e, hx, he, herror⟩
      · refine .inl ⟨⟨.number n, kind, params, ws, .number c⟩, ⟨⟨rfl, hws⟩, rfl⟩, ?_, ?_⟩
        · rw [completed, hid, hkind, hc, list_memberItems (k := "params") hv rfl,
            list_memberItems (k := "inputs") hv rfl, hparams, hinputs]
          rfl
        · rw [hid, formData, hkind, hc, hparams, hinputs]
          exact make_dataOf ⟨.number n, kind, params, ws, .number c⟩
      · refine .inr ⟨x, e, counts_of_mem_memberItems (k := "inputs") rfl hw hx, he, ?_⟩
        rw [hid, formData, hkind, hc, hparams]
        simp only [Instance.make, Option.getD_some, Value.index?, Value.text?, paramsOf_map]
        rw [herror]
        rfl
    · refine .inr ⟨x, _, hx, .outputCount, ?_⟩
      rw [hid, formData, hkind, hc]
      rfl
  · refine .inr ⟨x, _, hx, .instanceId, ?_⟩
    rw [hid]
    rfl

/-- What adding accepted data of an instance can do: add an instance that is written as the data,
once completed, or fail because the id is taken or, if it is not, because of a floating-point
number. -/
inductive FormEffect (n : Netlist) (v : Value) : Except Error Netlist → Prop where
  | inserts {i : Instance} (h : n.hasId i.id.value = false) (hi : i.IsCounted)
    (hv : completed v = formOf i) : FormEffect n v (.ok (n.insert i h))
  | taken {j : Instance} (hj : j ∈ n.instances) (hid : (formId v).natural? = some j.id.value) :
    FormEffect n v (.error (.duplicateId (formId v)))
  | refuses {x : Binary64} {e : Error} (hx : instanceSchema.Counts v (.real x))
    (he : e.NamesReal x) (hnew : ∀ j ∈ n.instances, (formId v).natural? ≠ some j.id.value) :
    FormEffect n v (.error e)

theorem formEffect (n : Netlist) {v : Value} (hv : instanceSchema.Accepts v) :
    FormEffect n v (n.insertForm v) := by
  by_cases htaken : (n.lookup? (formId v)).isSome = true
  · obtain ⟨j, hj⟩ := Option.isSome_iff_exists.1 htaken
    obtain ⟨hmem, hnumber⟩ := natural?_of_lookup? hj
    rw [insertForm_of_insert (insert_of_taken htaken)]
    exact .taken hmem hnumber
  · rcases completed_cases hv with ⟨i, hi, hcompleted, hmake⟩ | ⟨x, e, hx, he, hmake⟩
    · have hfree : n.hasId i.id.value = false := by
        rw [isSome_lookup? (Value.integer?_of_index? (Instance.make_ok hmake).1)] at htaken
        simpa using htaken
      rw [insertForm_of_insert (insert_of_make hmake hfree)]
      exact .inserts hfree hi hcompleted
    · have hid : formId v ≠ .null ∧ isKey (formId v) = true := by
        rcases formId_cases hv with ⟨k, hid⟩ | ⟨x, hid, -⟩ <;> simp [hid, isKey]
      rw [insertForm_of_insert (insert_of_unmade hid.1 hid.2 htaken hmake)]
      refine .refuses hx he fun j hj hnumber => htaken ?_
      rw [isSome_lookup? (Value.integer?_of_natural? hnumber)]
      exact hasId_eq_true_iff.2 ⟨j, hj, rfl⟩

/-- The form of an output: a name and a wire. -/
def outputSchema : Json.Schema := .pair .identifier wireSchema

/-- What naming an output of accepted data can do: add an output that is written as the data, or
fail because of the name or, if that is new, because of a floating-point number. -/
inductive OutputEffect (n : Netlist) (v : Value) : Except Error Netlist → Prop where
  | names {name : Text} {w : Wire} (hi : name.isIdentifier = true)
    (hn : name ∉ n.outputs.map Prod.fst) (hw : w.IsNumbered) (hv : v = outputForm (name, w)) :
    OutputEffect n v (.ok (n.append name w hi hn))
  | notIdentifier {name : Text} {wire : Value} (hv : v = .list [.text name, wire])
    (h : name.isIdentifier = false) : OutputEffect n v (.error (.outputName (.text name)))
  | defined {name : Text} {wire : Value} (hv : v = .list [.text name, wire])
    (h : name ∈ n.outputs.map Prod.fst) : OutputEffect n v (.error (.outputDefined name))
  | refuses {name : Text} {wire : Value} {x : Binary64} {e : Error}
    (hv : v = .list [.text name, wire]) (hi : name.isIdentifier = true)
    (hn : name ∉ n.outputs.map Prod.fst) (hx : wireSchema.Counts wire (.real x))
    (he : e.NamesReal x) : OutputEffect n v (.error e)

theorem outputEffect (n : Netlist) {v : Value} (hv : outputSchema.Accepts v) :
    OutputEffect n v (n.nameOutputForm v) := by
  obtain ⟨a, wire, rfl, ha, hwire⟩ := hv.pair
  obtain ⟨name, rfl⟩ := ha.identifier
  change OutputEffect n _ (n.nameOutput (.text name) wire)
  rw [nameOutput]
  by_cases hi : name.isIdentifier = true
  · rw [dif_pos hi]
    by_cases hn : name ∈ n.outputs.map Prod.fst
    · rw [dif_pos hn]
      exact .defined rfl hn
    · rw [dif_neg hn]
      rcases Wire.ofValue_cases hwire with ⟨w, hw, rfl⟩ | ⟨x, e, hx, he, herror⟩
      · rw [Wire.ofValue_toValue]
        exact .names hi hn hw rfl
      · rw [herror]
        exact .refuses rfl hi hn hx he
  · rw [dif_neg hi]
    exact .notIdentifier rfl (by simpa using hi)

/-! ### What was read -/

/-- The instances that were added are written as the data that they were added from, once completed,
in some order. -/
structure Gathered (items : List Value) (n : Netlist) : Prop where
  forms : (n.instances.map formOf).Perm (items.map completed)
  counted : ∀ i ∈ n.instances, i.IsCounted

theorem Gathered.insertForm {items : List Value} {n n' : Netlist} {v : Value}
    (hn : Gathered items n) (hv : instanceSchema.Accepts v) (h : n.insertForm v = .ok n') :
    Gathered (items ++ [v]) n' ∧ n'.outputs = n.outputs := by
  have heffect := formEffect n hv
  rw [h] at heffect
  cases heffect with
  | @inserts i hfree hi hcompleted =>
    refine ⟨⟨?_, ?_⟩, outputs_insert⟩
    · have hinsert := (perm_instances_insert (n := n) (h := hfree)).map formOf
      rw [List.map_append, List.map_singleton, ← hcompleted] at hinsert
      rw [List.map_append, List.map_singleton]
      exact hinsert.trans (hn.forms.append_right _)
    · intro j hj
      rcases mem_insert.1 hj with rfl | hj
      · exact hi
      · exact hn.counted j hj

theorem gathered_of_foldlM {items : List Value} {n : Netlist}
    (hitems : ∀ x ∈ items, instanceSchema.Accepts x)
    (h : items.foldlM insertForm empty = .ok n) : Gathered items n ∧ n.outputs = [] := by
  refine foldlM_induct (P := fun items n => Gathered items n ∧ n.outputs = []) h
    ⟨⟨.refl _, fun i hi => (List.not_mem_nil hi).elim⟩, rfl⟩ ?_
  rintro before x after k k' hsplit ⟨hk, hempty⟩ hstep
  obtain ⟨hk', hkeep⟩ := hk.insertForm (hitems x (by simp [hsplit])) hstep
  exact ⟨hk', hkeep.trans hempty⟩

/-- The outputs that were named are written as the data that they were named from. -/
structure Named (items : List Value) (n : Netlist) : Prop where
  forms : n.outputs.map outputForm = items
  numbered : ∀ o ∈ n.outputs, o.2.IsNumbered

theorem Named.nameOutputForm {items : List Value} {n n' : Netlist} {v : Value}
    (hn : Named items n) (hv : outputSchema.Accepts v) (h : n.nameOutputForm v = .ok n') :
    Named (items ++ [v]) n' ∧ n'.instances = n.instances := by
  have heffect := outputEffect n hv
  rw [h] at heffect
  cases heffect with
  | @names name w hi hnew hw hform =>
    refine ⟨⟨?_, ?_⟩, instances_append⟩
    · rw [outputs_append, List.map_append, hn.forms, hform]
      rfl
    · intro o ho
      rw [outputs_append] at ho
      rcases List.mem_append.1 ho with ho | ho
      · exact hn.numbered o ho
      · rw [List.mem_singleton.1 ho]
        exact hw

theorem named_of_foldlM {items : List Value} {m n : Netlist}
    (hitems : ∀ x ∈ items, outputSchema.Accepts x) (hempty : m.outputs = [])
    (h : items.foldlM nameOutputForm m = .ok n) : Named items n ∧ n.instances = m.instances := by
  refine foldlM_induct (P := fun items n => Named items n ∧ n.instances = m.instances) h
    ⟨⟨by rw [hempty]; rfl, by simp [hempty]⟩, rfl⟩ ?_
  rintro before x after k k' hsplit ⟨hk, hsame⟩ hstep
  obtain ⟨hk', hkeep⟩ := hk.nameOutputForm (hitems x (by simp [hsplit])) hstep
  exact ⟨hk', hkeep.trans hsame⟩

/-- What a netlist has to do with the data that it was read from: the instances are written as the
data, once completed, in some order, and the outputs are written as the data. -/
structure IsReadFrom (n : Netlist) (v : Value) : Prop where
  accepts : schema.Accepts v
  instances : Gathered (memberItems v "instances") n
  outputs : Named (memberItems v "outputs") n

theorem isReadFrom_of_ofValue {v : Value} {n : Netlist} (h : ofValue v = .ok n) :
    n.IsReadFrom v := by
  obtain ⟨hform, m, hm, hn⟩ := ofValue_eq_ok.1 h
  have hv := accepts_of_checkForm hform
  obtain ⟨hgathered, hempty⟩ :=
    gathered_of_foldlM (accepts_of_mem_memberItems (k := "instances") hv rfl) hm
  obtain ⟨hnamed, hsame⟩ :=
    named_of_foldlM (accepts_of_mem_memberItems (k := "outputs") hv rfl) hempty hn
  refine ⟨hv, ⟨?_, ?_⟩, hnamed⟩
  · rw [hsame]
    exact hgathered.forms
  · rw [hsame]
    exact hgathered.counted

end Netlist

end Latchwork
