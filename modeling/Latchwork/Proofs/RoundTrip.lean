import Latchwork.Proofs.Loading
import Latchwork.Proofs.Reading
import Latchwork.Proofs.Schedule
import Latchwork.Proofs.Writing

/-!
# Written netlists are read back

A netlist whose indices are numbers that are not too long, and whose kinds and parameters hold
characters only, is read back from its text as it was. Its data form is portable, so the reader
gives it again; it has the form that is asked for; and putting its instances and outputs together
one by one rebuilds the netlist, since instances are written in ascending order.
-/

namespace Latchwork

open Outcome

/-! ### Data that has its form -/

namespace Json.Schema

/-- Is the value free of violations, wherever it stands? -/
def Passes (s : Schema) (v : Value) : Prop := ∀ path, s.check path v = .ok []

theorem passes_natural (n : Nat) : Passes .natural (.int n) := by
  intro path
  have hpositive : isBelowZero (.int n) = false := by simp [isBelowZero]
  rw [check, hpositive]
  rfl

theorem passes_string (t : Text) : Passes .string (.text t) := by
  intro path
  rw [check]
  rfl

/-- The last code point of an identifier is no line feed, so all of them are looked at. -/
theorem passes_identifier {t : Text} (h : t.isIdentifier = true) :
    Passes .identifier (.text t) := by
  intro path
  have hend : t.endsWith '\n' = false := by
    apply Bool.eq_false_iff.2
    intro hlast
    have hmem : .char '\n' ∈ t.points := List.mem_of_getLast? (beq_iff_eq.1 hlast)
    unfold Text.isIdentifier Text.isIdentifierPoints at h
    split at h
    · cases h
    · next p rest hpoints =>
      rw [hpoints] at hmem
      rw [Bool.and_eq_true, List.all_eq_true] at h
      rcases List.mem_cons.1 hmem with rfl | hmem
      · cases h.1
      · cases h.2 _ hmem
  rw [check]
  simp only [hend, Bool.false_eq_true, if_false]
  rw [Text.isIdentifier] at h
  rw [h]
  rfl

theorem passes_pair {first second : Schema} {v w : Value} (hv : first.Passes v)
    (hw : second.Passes w) : Passes (.pair first second) (.list [v, w]) := by
  intro path
  rw [check]
  simp only [List.getElem?_cons_zero, List.getElem?_cons_succ, hv _, hw _]
  rfl

private theorem checkItems_of_passes {s : Schema} {values : List Value}
    (h : ∀ v ∈ values, s.Passes v)
    (path : List String) (position : Nat) : checkItems s.check path position values = .ok [] := by
  induction values generalizing position with
  | nil => rfl
  | cons v values ih =>
    rw [checkItems, h v (.head _), ih fun w hw => h w (.tail _ hw)]
    rfl

theorem passes_array {s : Schema} {values : List Value} (h : ∀ v ∈ values, s.Passes v) :
    Passes (.array s) (.list values) := by
  intro path
  rw [check]
  exact checkItems_of_passes h path 0

private theorem checkGiven_of_passes {members : List (String × Schema)}
    {given : List (Text × Value)}
    (h : ∀ m ∈ given, ∃ s, members.find? (fun k => m.1 == k.1) = some s ∧ s.2.Passes m.2)
    (path : List String) : checkGiven (checkers members) path given = .ok [] := by
  induction given with
  | nil => rfl
  | cons m given ih =>
    obtain ⟨key, v⟩ := m
    obtain ⟨s, hfind, hpasses⟩ := h (key, v) (.head _)
    rw [checkGiven, find?_checkers, hfind, ih fun k hk => h k (.tail _ hk)]
    simp only [Option.map_some, hpasses _]
    rfl

/-- An object passes if it has all required members, and each of its members is known and passes. -/
theorem passes_object {members : List (String × Schema)} {required : List String}
    {given : List (Text × Value)}
    (hrequired : ∀ key ∈ required, ((Value.object given).member? (Text.ofString key)).isSome = true)
    (hgiven : ∀ m ∈ given, ∃ s, members.find? (fun k => m.1 == k.1) = some s ∧ s.2.Passes m.2) :
    Passes (.object members required) (.object given) := by
  intro path
  have hmissing : (required.filter fun (key : String) =>
      ((Value.object given).member? key).isNone) = [] := by
    apply List.filter_eq_nil_iff.2
    intro key hkey hnone
    rw [Option.isNone_iff_eq_none] at hnone
    have hsome := hrequired key hkey
    rw [hnone] at hsome
    cases hsome
  have hunknown : ((given.map (·.1)).filter fun (key : Text) =>
      !members.any fun m => key == m.1) = [] := by
    apply List.filter_eq_nil_iff.2
    intro key hkey hnone
    obtain ⟨m, hm, rfl⟩ := List.mem_map.1 hkey
    obtain ⟨s, hfind, -⟩ := hgiven m hm
    have hany : members.any (fun k => m.1 == k.1) = true :=
      List.any_eq_true.2 ⟨s, List.mem_of_find?_eq_some hfind, by simpa using List.find?_some hfind⟩
    rw [hany] at hnone
    cases hnone
  rw [check, hmissing, hunknown, checkGiven_of_passes hgiven]
  rfl

end Json.Schema

/-! ### What can be written -/

/-- An instance whose id, inputs and output count are numbers. -/
structure Instance.IsCounted (i : Instance) : Prop where
  numbered : i.IsNumbered
  outputCount : i.outputCount.IsNumber

/-- A netlist whose ids, ports and output counts are numbers. -/
structure Netlist.IsCounted (n : Netlist) : Prop where
  instances : ∀ i ∈ n.instances, i.IsCounted
  outputs : ∀ o ∈ n.outputs, o.2.IsNumbered

/-- A number that is not too long to be written. -/
def Index.IsWritable (i : Index) : Prop := i.IsNumber ∧ Numeral.isTooLong i.value = false

/-- A wire whose driver and port can be written. -/
def Wire.IsWritable (w : Wire) : Prop := w.driver.IsWritable ∧ w.port.IsWritable

/-- An instance whose numbers can be written and whose texts are strings. -/
structure Instance.IsWritable (i : Instance) : Prop where
  id : i.id.IsWritable
  kind : i.kind.IsString
  params : ∀ p ∈ i.params, p.1.IsString ∧ p.2.IsString
  inputs : ∀ w ∈ i.inputs, w.IsWritable
  outputCount : i.outputCount.IsWritable

/-- A netlist that can be written. The names of its outputs are identifiers, hence strings. -/
structure Netlist.IsWritable (n : Netlist) : Prop where
  instances : ∀ i ∈ n.instances, i.IsWritable
  outputs : ∀ o ∈ n.outputs, o.2.IsWritable

private theorem Netlist.IsWritable.isCounted {n : Netlist} (h : n.IsWritable) : n.IsCounted := by
  constructor
  · intro i hi
    have hi := h.instances i hi
    exact ⟨⟨hi.id.1, fun w hw => ⟨(hi.inputs w hw).1.1, (hi.inputs w hw).2.1⟩⟩, hi.outputCount.1⟩
  · exact fun o ho => ⟨(h.outputs o ho).1.1, (h.outputs o ho).2.1⟩

private theorem Index.isWritable_number {n : Nat} (h : n < 10) : (Index.number n).IsWritable :=
  ⟨rfl, Numeral.isTooLong_of_lt h⟩

private theorem Index.IsWritable.isShort {i : Index} (h : i.IsWritable) : i.IsShort :=
  Index.isShort_iff.2 h.2

private theorem Wire.IsWritable.isShort {w : Wire} (h : w.IsWritable) : w.IsShort :=
  ⟨h.1.isShort, h.2.isShort⟩

private theorem Netlist.IsWritable.isShort {n : Netlist} (h : n.IsWritable) : n.IsShort := by
  refine ⟨fun i hi => ?_, fun o ho => (h.outputs o ho).isShort⟩
  have hi := h.instances i hi
  exact ⟨hi.id.isShort, hi.outputCount.isShort, fun w hw => (hi.inputs w hw).isShort⟩

/-- An identifier is a string. -/
theorem Text.isString_of_isIdentifier {t : Text} (h : t.isIdentifier = true) : t.IsString := by
  obtain ⟨points⟩ := t
  have hsatisfied : ∀ p ∈ points, ∃ test, p.satisfies test = true := by
    intro p hp
    cases points with
    | nil => cases h
    | cons q rest =>
      obtain ⟨hq, hrest⟩ := Bool.and_eq_true_iff.1 h
      rcases List.mem_cons.1 hp with rfl | hp
      · exact ⟨_, hq⟩
      · exact ⟨_, List.all_eq_true.1 hrest p hp⟩
  have hchars : ∃ cs : List Char, points = cs.map .char := by
    clear h
    induction points with
    | nil => exact ⟨[], rfl⟩
    | cons p rest ih =>
      obtain ⟨cs, rfl⟩ := ih fun q hq => hsatisfied q (.tail _ hq)
      obtain ⟨test, htest⟩ := hsatisfied p (.head _)
      cases p with
      | char c => exact ⟨c :: cs, rfl⟩
      | half index => cases htest
  obtain ⟨cs, rfl⟩ := hchars
  exact ⟨String.ofList cs, by simp [Text.ofString]⟩

namespace Index

variable {i : Index}

private theorem IsNumber.toValue_eq (h : i.IsNumber) : i.toValue = .int i.value := by
  rw [h]
  rfl

private theorem IsNumber.passes (h : i.IsNumber) : Json.Schema.Passes .natural i.toValue := by
  rw [h.toValue_eq]
  exact Json.Schema.passes_natural _

private theorem IsWritable.portable (h : i.IsWritable) : i.toValue.Portable := by
  rw [h.1.toValue_eq]
  exact .int h.2

private theorem depth_toValue (i : Index) : i.toValue.depth = 0 := by
  cases i <;> simp [toValue, Value.depth]

/-- An index equals its value as a number. -/
theorem integer?_toValue (i : Index) : i.toValue.integer? = some (.ofNat i.value) :=
  Value.integer?_of_index? i.index?_toValue

end Index

namespace Value

/-- A list is one level deeper than its elements. -/
theorem depth_list_le {items : List Value} {k : Nat} (h : ∀ v ∈ items, v.depth ≤ k) :
    (list items).depth ≤ k + 1 := by
  rw [depth]
  induction items with
  | nil => simp [depthOfItems]
  | cons v items ih =>
    have hv := h v (.head _)
    have hitems := ih fun w hw => h w (.tail _ hw)
    rw [depthOfItems]
    omega

/-- An object is one level deeper than its members. -/
theorem depth_object_le {members : List (Text × Value)} {k : Nat}
    (h : ∀ m ∈ members, m.2.depth ≤ k) : (object members).depth ≤ k + 1 := by
  rw [depth]
  induction members with
  | nil => simp [depthOfMembers]
  | cons m members ih =>
    obtain ⟨key, v⟩ := m
    have hv : v.depth ≤ k := h (key, v) (.head _)
    have hmembers := ih fun m hm => h m (.tail _ hm)
    rw [depthOfMembers]
    omega

private theorem portable_pair {v w : Value} (hv : v.Portable) (hw : w.Portable) :
    (list [v, w]).Portable := by
  refine .list fun x hx => ?_
  rcases List.mem_pair.1 hx with rfl | rfl
  · exact hv
  · exact hw

end Value

theorem Wire.depth_toValue (w : Wire) : w.toValue.depth ≤ 1 := by
  apply Value.depth_list_le
  simp [Index.depth_toValue]

private theorem Wire.IsWritable.portable {w : Wire} (h : w.IsWritable) : w.toValue.Portable :=
  Value.portable_pair h.1.portable h.2.portable

private theorem Wire.IsNumbered.passes {w : Wire} (h : w.IsNumbered) :
    Netlist.wireSchema.Passes w.toValue :=
  Json.Schema.passes_pair h.1.passes h.2.passes

namespace Netlist

/-! ### The data form of an instance -/

section Instances

variable {i : Instance}

private theorem depth_formOf (i : Instance) : (formOf i).depth ≤ 3 := by
  refine Value.depth_object_le fun m hm => ?_
  simp only [List.mem_cons, List.not_mem_nil, or_false] at hm
  rcases hm with rfl | rfl | rfl | rfl | rfl
  · simp [Index.depth_toValue]
  · simp [Value.depth]
  · refine Value.depth_list_le fun v hv => ?_
    obtain ⟨p, -, rfl⟩ := List.mem_map.1 hv
    exact Value.depth_list_le (by simp [Value.depth])
  · refine Value.depth_list_le fun v hv => ?_
    obtain ⟨w, -, rfl⟩ := List.mem_map.1 hv
    exact w.depth_toValue
  · simp [Index.depth_toValue]

private theorem portable_formOf (h : i.IsWritable) : (formOf i).Portable := by
  refine .object (by simp [Text.ofString_inj]) (fun m hm => ?_) fun m hm => ?_
  · simp only [List.mem_cons, List.not_mem_nil, or_false] at hm
    rcases hm with rfl | rfl | rfl | rfl | rfl <;> exact ⟨_, rfl⟩
  · simp only [List.mem_cons, List.not_mem_nil, or_false] at hm
    rcases hm with rfl | rfl | rfl | rfl | rfl
    · exact h.id.portable
    · exact .text h.kind
    · refine .list fun v hv => ?_
      obtain ⟨p, hp, rfl⟩ := List.mem_map.1 hv
      exact Value.portable_pair (.text (h.params p hp).1) (.text (h.params p hp).2)
    · refine .list fun v hv => ?_
      obtain ⟨w, hw, rfl⟩ := List.mem_map.1 hv
      exact (h.inputs w hw).portable
    · exact h.outputCount.portable

private theorem passes_formOf (h : i.IsCounted) : instanceSchema.Passes (formOf i) := by
  refine Json.Schema.passes_object (by simp; exact ⟨rfl, rfl⟩) fun m hm => ?_
  simp only [List.mem_cons, List.not_mem_nil, or_false] at hm
  rcases hm with rfl | rfl | rfl | rfl | rfl
  · exact ⟨_, rfl, h.numbered.1.passes⟩
  · exact ⟨_, rfl, Json.Schema.passes_string _⟩
  · refine ⟨_, rfl, Json.Schema.passes_array fun v hv => ?_⟩
    obtain ⟨p, -, rfl⟩ := List.mem_map.1 hv
    exact Json.Schema.passes_pair (Json.Schema.passes_string _) (Json.Schema.passes_string _)
  · refine ⟨_, rfl, Json.Schema.passes_array fun v hv => ?_⟩
    obtain ⟨w, hw, rfl⟩ := List.mem_map.1 hv
    exact (h.numbered.2 w hw).passes
  · exact ⟨_, rfl, h.outputCount.passes⟩

end Instances

/-! ### The data form of a netlist -/

/-- A named wire as data. -/
def outputForm (o : Text × Wire) : Value := .list [.text o.1, o.2.toValue]

theorem toValue_eq (n : Netlist) : n.toValue = .object
    [("instances", .list (n.instances.map formOf)),
      ("outputs", .list (n.outputs.map outputForm))] :=
  rfl

variable {n : Netlist}

private theorem depth_toValue (n : Netlist) : n.toValue.depth ≤ 5 := by
  rw [toValue_eq]
  refine Value.depth_object_le fun m hm => ?_
  rcases List.mem_pair.1 hm with rfl | rfl
  · refine Value.depth_list_le fun v hv => ?_
    obtain ⟨i, -, rfl⟩ := List.mem_map.1 hv
    exact depth_formOf i
  · refine Value.depth_list_le fun v hv => ?_
    obtain ⟨o, -, rfl⟩ := List.mem_map.1 hv
    refine Value.depth_list_le fun x hx => ?_
    rcases List.mem_pair.1 hx with rfl | rfl
    · simp [Value.depth]
    · exact Nat.le_trans o.2.depth_toValue (by decide)

private theorem IsWritable.portable (h : n.IsWritable) : n.toValue.Portable := by
  rw [toValue_eq]
  refine .object (by simp [Text.ofString_inj]) (fun m hm => ?_) fun m hm => ?_
  · rcases List.mem_pair.1 hm with rfl | rfl <;> exact ⟨_, rfl⟩
  · rcases List.mem_pair.1 hm with rfl | rfl
    · refine .list fun v hv => ?_
      obtain ⟨i, hi, rfl⟩ := List.mem_map.1 hv
      exact portable_formOf (h.instances i hi)
    · refine .list fun v hv => ?_
      obtain ⟨o, ho, rfl⟩ := List.mem_map.1 hv
      exact Value.portable_pair (.text (Text.isString_of_isIdentifier (n.namesIdentifiers o ho)))
        (h.outputs o ho).portable

/-- Data without violations is what is asked for, unless it is nested too deeply. -/
theorem checkForm_of_passes {v : Value} (hpasses : schema.Passes v)
    (hdepth : v.depth ≤ nestingLimit) : Netlist.checkForm v = .ok () := by
  refine checkForm_eq_ok.2 ⟨hdepth, ?_⟩
  rw [Json.Schema.violations, hpasses]
  simp [Except.map]

private theorem IsCounted.checkForm (h : n.IsCounted) : checkForm n.toValue = .ok () := by
  have hpasses : schema.Passes n.toValue := by
    rw [toValue_eq]
    refine Json.Schema.passes_object (by simp; exact ⟨rfl, rfl⟩) fun m hm => ?_
    rcases List.mem_pair.1 hm with rfl | rfl
    · refine ⟨_, rfl, Json.Schema.passes_array fun v hv => ?_⟩
      obtain ⟨i, hi, rfl⟩ := List.mem_map.1 hv
      exact passes_formOf (h.instances i hi)
    · refine ⟨_, rfl, Json.Schema.passes_array fun v hv => ?_⟩
      obtain ⟨o, ho, rfl⟩ := List.mem_map.1 hv
      exact Json.Schema.passes_pair (Json.Schema.passes_identifier (n.namesIdentifiers o ho))
        (h.outputs o ho).passes
  exact checkForm_of_passes hpasses (Nat.le_trans n.depth_toValue (by decide))

/-! ### Putting a netlist together again -/

/-- The data that an instance is made from. -/
def dataOf (i : Instance) : InstanceData :=
  { kind := .text i.kind
    params := .list (i.params.map fun p => .list [.text p.1, .text p.2])
    inputs := .list (i.inputs.map Wire.toValue)
    outputCount := i.outputCount.toValue }

/-- Parameters are read back from their data. -/
theorem paramsOf_map (ps : List (Text × Text)) :
    Instance.paramsOf (.list (ps.map fun p => .list [.text p.1, .text p.2])) = .ok ps := by
  unfold Instance.paramsOf
  refine mapM_eq_ok.2 ?_
  rw [List.map_map]
  exact List.map_congr_left fun p _ => rfl

/-- Wires are read back from their data. -/
theorem wiresOf_map (ws : List Wire) :
    Instance.wiresOf (.list (ws.map Wire.toValue)) = .ok ws := by
  unfold Instance.wiresOf
  refine mapM_eq_ok.2 ?_
  rw [List.map_map]
  exact List.map_congr_left fun w _ => Wire.ofValue_toValue w

/-- An instance is made from its data. -/
theorem make_dataOf (i : Instance) : Instance.make i.id.toValue (dataOf i) = .ok i := by
  simp only [Instance.make, dataOf, Index.index?_toValue, Value.text?, paramsOf_map, wiresOf_map]
  rfl

/-- A value that equals a number finds an instance if the number is the id of one. -/
theorem isSome_lookup? {v : Value} {k : Nat} (h : v.integer? = some (.ofNat k)) :
    (n.lookup? v).isSome = n.hasId k := by
  rw [lookup?, h]
  apply Bool.eq_iff_iff.2
  simp [Netlist.find?, hasId]

/-- An instance whose id is taken is refused. -/
theorem insert_of_taken {b : Builder} {id : Value} {data : InstanceData}
    (h : (b.netlist.lookup? id).isSome = true) :
    b.insert id data = (b, .error (.duplicateId id)) := by
  cases id with
  | null => cases h
  | text s => cases h
  | list items => cases h
  | object members => cases h
  | _ => exact if_pos h

/-- Data with a new id that no instance can be made from is refused. -/
theorem insert_of_unmade {b : Builder} {id : Value} {data : InstanceData} {e : Error}
    (hid : id ≠ .null) (hkey : isKey id = true) (hfree : ¬(b.netlist.lookup? id).isSome = true)
    (hmake : Instance.make id data = .error e) :
    b.insert id data = (b.release id, .error e) := by
  have hat : b.insertAt id data = (b.release id, .error e) := by
    simp only [Builder.insertAt, hkey, hfree, hmake]
    rfl
  rw [← hat]
  cases id with
  | null => exact absurd rfl hid
  | _ => rfl

/-- An instance with a new id is added, and the reservation of its id is given up. -/
theorem insert_of_make {b : Builder} {id : Value} {data : InstanceData} {i : Instance}
    (hmake : Instance.make id data = .ok i) (h : b.netlist.hasId i.id.value = false) :
    b.insert id data = ({ b.release id with netlist := b.netlist.insert i h }, .ok i) := by
  have hindex := (Instance.make_ok hmake).1
  have hnumber := Value.integer?_of_index? hindex
  have hfree : (b.netlist.lookup? id).isSome = false := by rw [isSome_lookup? hnumber, h]
  have hrelease : (b.release id).netlist = b.netlist := by rw [Builder.release, hnumber]
  have hinsert : (b.release id).netlist.insert? i = some (b.netlist.insert i h) := by
    rw [hrelease]
    exact dif_pos h
  have hkey : isKey id = true := by
    cases id with
    | list items => cases hindex
    | object members => cases hindex
    | _ => rfl
  have hat : b.insertAt id data =
      ({ b.release id with netlist := b.netlist.insert i h }, .ok i) := by
    simp only [Builder.insertAt, hkey, hfree, hmake, hinsert]
    rfl
  rw [← hat]
  cases id with
  | null => cases hindex
  | _ => rfl

/-- The id that the data form of an instance gives. -/
def formId (v : Value) : Value := (v.member? "id").getD .null

/-- What else the data form of an instance gives. -/
def formData (v : Value) : InstanceData :=
  { kind := (v.member? "kind").getD .null
    params := .list (memberItems v "params")
    inputs := .list (memberItems v "inputs")
    outputCount := (v.member? "outputs").getD (.int 1) }

/-- The outcome of adding an instance in data form. -/
theorem insertForm_of_insert {v : Value} {b : Builder} {made : Except Error Instance}
    (h : (Builder.ofNetlist n).insert (formId v) (formData v) = (b, made)) :
    n.insertForm v = made.map fun _ => b.netlist := by
  unfold insertForm
  dsimp only
  split
  · next hmade =>
    cases hmade.symm.trans h
    rfl
  · next hfailed =>
    cases hfailed.symm.trans h
    rfl

private theorem insertForm_formOf {i : Instance} (h : n.hasId i.id.value = false) :
    n.insertForm (formOf i) = .ok (n.insert i h) := by
  have hinsert := insert_of_make (b := Builder.ofNetlist n) (make_dataOf i) h
  exact insertForm_of_insert (v := formOf i) hinsert

/-- The instances of a netlist, added one by one, are its instances. -/
theorem foldlM_insertForm (n : Netlist) :
    ∃ m, (n.instances.map formOf).foldlM insertForm empty = .ok m ∧
      m.instances = n.instances ∧ m.outputs = [] := by
  rw [List.foldlM_map]
  refine foldlM_ok (P := fun before (m : Netlist) => m.instances = before ∧ m.outputs = [])
    ⟨rfl, rfl⟩ ?_
  rintro before i after m hsplit ⟨hbefore, houtputs⟩
  have habove : ∀ j ∈ before, j.id.value < i.id.value := by
    have hascending := n.ascending
    rw [hsplit, List.pairwise_append] at hascending
    exact fun j hj => hascending.2.2 j hj i (.head _)
  rw [← hbefore] at habove
  have hnew : m.hasId i.id.value = false :=
    hasId_eq_false_iff.2 fun j hj => Nat.ne_of_lt (habove j hj)
  refine ⟨m.insert i hnew, insertForm_formOf hnew, ?_, houtputs⟩
  rw [instances_insert_of_above habove, hbefore]

private theorem nameOutputForm_outputForm {name : Text} {w : Wire} (hi : name.isIdentifier = true)
    (hn : name ∉ n.outputs.map Prod.fst) :
    n.nameOutputForm (outputForm (name, w)) = .ok (n.append name w hi hn) := by
  change n.nameOutput (.text name) w.toValue = _
  rw [nameOutput, dif_pos hi, dif_neg hn, Wire.ofValue_toValue]
  rfl

/-- The outputs of a netlist, added one by one to its instances, complete it. -/
theorem foldlM_nameOutputForm {m : Netlist} (hinstances : m.instances = n.instances)
    (houtputs : m.outputs = []) :
    ∃ k, (n.outputs.map outputForm).foldlM nameOutputForm m = .ok k ∧ k.SameAs n := by
  rw [List.foldlM_map]
  have hrun : ∃ k, n.outputs.foldlM (fun k o => nameOutputForm k (outputForm o)) m = .ok k ∧
      k.instances = n.instances ∧ k.outputs = n.outputs := by
    refine foldlM_ok (P := fun before (k : Netlist) => k.instances = n.instances ∧
      k.outputs = before) ⟨hinstances, houtputs⟩ ?_
    rintro before ⟨name, w⟩ after k hsplit ⟨hk, hbefore⟩
    have hidentifier : name.isIdentifier = true :=
      n.namesIdentifiers (name, w) (by simp [hsplit])
    have hnew : name ∉ k.outputs.map Prod.fst := by
      have hdistinct := n.namesDistinct
      rw [hsplit, List.map_append, List.map_cons, List.nodup_append] at hdistinct
      rw [hbefore]
      exact fun hmem => hdistinct.2.2 name hmem name (.head _) rfl
    refine ⟨k.append name w hidentifier hnew, nameOutputForm_outputForm hidentifier hnew, hk, ?_⟩
    rw [outputs_append, hbefore]
  obtain ⟨k, hrun, hk, hkout⟩ := hrun
  exact ⟨k, hrun, hk, hkout⟩

/-- A netlist that has numbers only is rebuilt from its data form. -/
theorem IsCounted.ofValue_toValue (h : n.IsCounted) :
    ∃ m, ofValue n.toValue = .ok m ∧ m.SameAs n := by
  obtain ⟨m, hm, hinstances, houtputs⟩ := foldlM_insertForm n
  obtain ⟨k, hk, hsame⟩ := foldlM_nameOutputForm hinstances houtputs
  exact ⟨k, ofValue_eq_ok.2 ⟨h.checkForm, m, hm, hk⟩, hsame⟩

private theorem IsWritable.dump_eq (h : n.IsWritable) : n.dump = .ok n.toText :=
  Numeral.written_eq_ok.2 ⟨Netlist.isShort_iff.1 h.isShort, rfl⟩

/-- A netlist that can be written is written, and read back from its text as it was: every instance
with its id, kind, parameters, inputs and output count, and every output, in order. -/
theorem ofText_toText (n : Netlist) (h : n.IsWritable) :
    n.dump = .ok n.toText ∧
      ∃ m, ofText n.toText = .ok m ∧ m.instances = n.instances ∧ m.outputs = n.outputs := by
  have hread : Json.read (Text.ofString n.toText) = .ok n.toValue := by
    refine Json.read_print h.portable (Nat.le_trans n.depth_toValue (by decide)) fun p hp => ?_
    rw [List.mem_singleton.1 hp]
    rfl
  obtain ⟨m, hm, hsame⟩ := h.isCounted.ofValue_toValue
  refine ⟨h.dump_eq, m, ?_, hsame.instances, hsame.outputs⟩
  rw [ofText, hread]
  exact hm

/-- An instance of no known kind, whose texts need escapes, and with a repeated parameter. -/
def escapes : Netlist :=
  withFlag
    [⟨.number 0, "\"\\é😀", [("", "\n"), ("\x7f", "\t"), ("", "\x00")],
      [⟨.number 2, .number 1⟩, ⟨.number 0, .number 0⟩], .number 3⟩]
    ⟨.number 0, .number 2⟩ (by decide)

theorem escapes_readBack :
    escapes.IsWritable ∧ escapes.dump = .ok escapes.toText ∧
      ∃ m, ofText escapes.toText = .ok m ∧ m.instances = escapes.instances ∧
        m.outputs = escapes.outputs := by
  have hwritable : escapes.IsWritable := by
    constructor
    · intro i hi
      rw [List.mem_singleton.1 hi]
      constructor
      · exact Index.isWritable_number (by decide)
      · exact ⟨_, rfl⟩
      · intro p hp
        simp only [List.mem_cons, List.not_mem_nil, or_false] at hp
        rcases hp with rfl | rfl | rfl <;> exact ⟨⟨_, rfl⟩, _, rfl⟩
      · intro w hw
        rcases List.mem_pair.1 hw with rfl | rfl <;>
          exact ⟨Index.isWritable_number (by decide), Index.isWritable_number (by decide)⟩
      · exact Index.isWritable_number (by decide)
    · intro o ho
      rw [List.mem_singleton.1 ho]
      exact ⟨Index.isWritable_number (by decide), Index.isWritable_number (by decide)⟩
  exact ⟨hwritable, ofText_toText escapes hwritable⟩

end Netlist

end Latchwork
