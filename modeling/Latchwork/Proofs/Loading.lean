import Latchwork.Netlist.Form
import Latchwork.Proofs.Name
import Latchwork.Proofs.Outcome

/-!
# Loaded netlists are numbered

Data that has the form of a netlist gives ids and ports as numbers: truth values have not that form,
and numbers that are no integers make no index. So all ids and wires of a loaded netlist are
numbered.
-/

namespace Latchwork

open Outcome

namespace Json.Schema

/-- Has the value the form of the schema? -/
def Accepts (s : Schema) (v : Value) : Prop := ∃ path, s.check path v = .ok []

private theorem Accepts.isNumber {v : Value} {i : Index} (h : Accepts .natural v)
    (hi : v.index? = some i) : i.IsNumber := by
  obtain ⟨path, h⟩ := h
  cases v with
  | int z =>
    cases z with
    | ofNat n =>
      cases hi
      rfl
    | negSucc n => cases hi
  | bool b =>
    rw [check] at h
    cases h
  | _ => cases hi

/-- A pair is a list of two values, each of its form. -/
theorem Accepts.pair {a b : Schema} {v : Value} (h : Accepts (.pair a b) v) :
    ∃ x y, v = .list [x, y] ∧ Accepts a x ∧ Accepts b y := by
  obtain ⟨path, h⟩ := h
  unfold check at h
  dsimp only at h
  split at h
  · next values =>
    match values with
    | [] => cases h
    | [x] =>
      obtain ⟨one, -, h⟩ := bind_eq_ok.1 h
      cases h
    | [x, y] =>
      obtain ⟨one, hone, h⟩ := bind_eq_ok.1 h
      obtain ⟨two, htwo, h⟩ := bind_eq_ok.1 h
      obtain ⟨rfl, rfl⟩ := List.append_eq_nil_iff.1 (Except.ok.inj h)
      exact ⟨x, y, rfl, ⟨_, hone⟩, ⟨_, htwo⟩⟩
    | x :: y :: z :: rest =>
      obtain ⟨one, -, h⟩ := bind_eq_ok.1 h
      obtain ⟨two, -, h⟩ := bind_eq_ok.1 h
      simp [violationIf] at h
      cases h
  · cases h

private theorem checkItems_nil {check : Check} {path : List String} {k : Nat} {values : List Value}
    (h : checkItems check path k values = .ok []) :
    ∀ x ∈ values, ∃ path, check path x = .ok [] := by
  induction values generalizing k with
  | nil => simp
  | cons v rest ih =>
    rw [checkItems] at h
    obtain ⟨here, hhere, h⟩ := bind_eq_ok.1 h
    obtain ⟨later, hlater, h⟩ := bind_eq_ok.1 h
    obtain ⟨rfl, rfl⟩ := List.append_eq_nil_iff.1 (Except.ok.inj h)
    intro x hx
    rcases List.mem_cons.1 hx with rfl | hx
    · exact ⟨_, hhere⟩
    · exact ih hlater x hx

/-- An array is a list of values of one form. -/
theorem Accepts.array {items : Schema} {v : Value} (h : Accepts (.array items) v) :
    ∃ values, v = .list values ∧ ∀ x ∈ values, Accepts items x := by
  obtain ⟨path, h⟩ := h
  unfold check at h
  split at h
  · next values => exact ⟨values, rfl, checkItems_nil h⟩
  · cases h

private theorem checkGiven_nil {checks : List (String × Check)} {path : List String}
    {given : List (Text × Value)} (h : checkGiven checks path given = .ok []) :
    ∀ m ∈ given, ∀ c, checks.find? (fun c => m.1 == c.1) = some c →
      ∃ path, c.2 path m.2 = .ok [] := by
  induction given with
  | nil => simp
  | cons m rest ih =>
    rw [checkGiven] at h
    intro k hk c hc
    cases hfind : checks.find? (fun c => m.1 == c.1) with
    | none =>
      rw [hfind] at h
      obtain ⟨here, hhere, h⟩ := bind_eq_ok.1 h
      cases hhere
      obtain ⟨later, hlater, h⟩ := bind_eq_ok.1 h
      cases h
      rcases List.mem_cons.1 hk with rfl | hk
      · rw [hfind] at hc
        cases hc
      · exact ih hlater k hk c hc
    | some found =>
      rw [hfind] at h
      obtain ⟨here, hhere, h⟩ := bind_eq_ok.1 h
      obtain ⟨later, hlater, h⟩ := bind_eq_ok.1 h
      obtain ⟨rfl, rfl⟩ := List.append_eq_nil_iff.1 (Except.ok.inj h)
      rcases List.mem_cons.1 hk with rfl | hk
      · rw [hfind] at hc
        cases hc
        exact ⟨_, hhere⟩
      · exact ih hlater k hk c hc

/-- The check of a member is the check of its schema. -/
theorem find?_checkers (members : List (String × Schema)) (key : Text) :
    (checkers members).find? (fun c => key == c.1) =
      (members.find? fun m => key == m.1).map fun m => (m.1, m.2.check) := by
  induction members with
  | nil => rfl
  | cons m rest ih =>
    obtain ⟨name, schema⟩ := m
    rw [checkers, List.find?_cons, List.find?_cons]
    split
    · next hk => simp [hk]
    · next hk => simp [hk, ih]

/-- An object has its required members, and each of its members is known and has its form. -/
theorem Accepts.members {members : List (String × Schema)} {required : List String} {v : Value}
    (h : Accepts (.object members required) v) :
    (∀ key ∈ required, (v.member? (Text.ofString key)).isSome = true) ∧
      ∃ given, v = .object given ∧ ∀ m ∈ given, ∃ s,
        members.find? (fun k => m.1 == Text.ofString k.1) = some s ∧ Accepts s.2 m.2 := by
  obtain ⟨path, h⟩ := h
  unfold check at h
  split at h
  · next given =>
    obtain ⟨inner, hinner, h⟩ := bind_eq_ok.1 h
    have hnil := Except.ok.inj h
    rw [List.append_eq_nil_iff, List.append_eq_nil_iff] at hnil
    obtain ⟨⟨hmissing, hunknown⟩, rfl⟩ := hnil
    refine ⟨fun key hkey => ?_, given, rfl, fun m hm => ?_⟩
    · simp only [violationIf, ite_eq_right_iff, List.cons_ne_nil, imp_false, Bool.not_eq_true',
        Bool.not_eq_false, List.isEmpty_iff, List.filter_eq_nil_iff] at hmissing
      simpa [Option.isSome_iff_ne_none] using hmissing key hkey
    · simp only [violationIf, ite_eq_right_iff, List.cons_ne_nil, imp_false, Bool.not_eq_true',
        Bool.not_eq_false, List.isEmpty_iff, List.filter_eq_nil_iff] at hunknown
      have hknown : members.any (fun k => m.1 == Text.ofString k.1) = true := by
        simpa using hunknown m.1 (List.mem_map_of_mem hm)
      cases hfind : members.find? (fun k => m.1 == Text.ofString k.1) with
      | none =>
        rw [List.find?_eq_none] at hfind
        obtain ⟨k, hk, hkey⟩ := List.any_eq_true.1 hknown
        exact absurd hkey (hfind k hk)
      | some s =>
        refine ⟨s, rfl, checkGiven_nil hinner m hm (s.1, s.2.check) ?_⟩
        rw [find?_checkers, hfind]
        rfl
  · cases h

/-- An object has its required members, and each known member has its form. -/
theorem Accepts.object {members : List (String × Schema)} {required : List String} {v : Value}
    (h : Accepts (.object members required) v) :
    (∀ key ∈ required, (v.member? (Text.ofString key)).isSome = true) ∧
      ∀ {k : String} {s : Schema} {x : Value},
        members.find? (fun m => Text.ofString k == Text.ofString m.1) = some (k, s) →
        v.member? (Text.ofString k) = some x → Accepts s x := by
  obtain ⟨hrequired, given, rfl, hgiven⟩ := h.members
  refine ⟨hrequired, fun {k s x} hmember hx => ?_⟩
  obtain ⟨e, he, rfl⟩ := Option.map_eq_some_iff.1 hx
  have hkey : e.1 = Text.ofString k := by simpa using List.find?_some he
  obtain ⟨s', hs', haccepts⟩ := hgiven e (List.mem_of_find?_eq_some he)
  rw [hkey, hmember] at hs'
  cases hs'
  exact haccepts

end Json.Schema

/-! ### Numbered netlists -/

/-- Are the id and the inputs of an instance numbered? -/
def Instance.IsNumbered (i : Instance) : Prop :=
  i.id.IsNumber ∧ ∀ w ∈ i.inputs, w.IsNumbered

private theorem Wire.isNumbered_ofValue {v : Value} {w : Wire} (hv : Netlist.wireSchema.Accepts v)
    (h : Wire.ofValue v = .ok w) : w.IsNumbered := by
  obtain ⟨x, y, rfl, hx, hy⟩ := hv.pair
  have hmake : make x y = .ok w := h
  unfold make at hmake
  split at hmake
  · next i p hi hp =>
    cases hmake
    exact ⟨hx.isNumber hi, hy.isNumber hp⟩
  · cases hmake
  · cases hmake

/-- A value that can stand for an index equals it as a number. -/
theorem Value.integer?_of_index? {v : Value} {i : Index} (h : v.index? = some i) :
    v.integer? = some (.ofNat i.value) := by
  unfold index? at h
  split at h
  · cases h
    rfl
  · cases h
    rfl
  · cases h

namespace Instance

/-- The steps of making an instance, each of which succeeded. -/
theorem make_ok {id : Value} {data : InstanceData} {i : Instance} (h : make id data = .ok i) :
    id.index? = some i.id ∧ wiresOf data.inputs = .ok i.inputs := by
  unfold make at h
  split at h
  · next index hindex =>
    split at h
    · next kind hkind =>
      split at h
      · next count hcount =>
        obtain ⟨params, -, h⟩ := bind_eq_ok.1 h
        obtain ⟨inputs, hinputs, h⟩ := bind_eq_ok.1 h
        cases h
        exact ⟨hindex, hinputs⟩
      · cases h
    · cases h
  · cases h

private theorem isNumbered_of_make {id : Value} {data : InstanceData} {items : List Value}
    {i : Instance} (hid : Json.Schema.Accepts .natural id) (hdata : data.inputs = .list items)
    (hitems : ∀ x ∈ items, Netlist.wireSchema.Accepts x) (h : make id data = .ok i) :
    i.IsNumbered := by
  obtain ⟨hindex, hinputs⟩ := make_ok h
  refine ⟨hid.isNumber hindex, fun w hw => ?_⟩
  rw [hdata] at hinputs
  obtain ⟨x, hx, hxw⟩ := exists_element hinputs hw
  exact Wire.isNumbered_ofValue (hitems x hx) hxw

end Instance

/-- An instance that was added stands beside those that were there, and the outputs are kept. -/
theorem Builder.insertAt_ok {b b' : Builder} {id : Value} {data : InstanceData} {i : Instance}
    (h : b.insertAt id data = (b', .ok i)) :
    Instance.make id data = .ok i ∧
      (∀ j, j ∈ b'.netlist.instances ↔ j = i ∨ j ∈ b.netlist.instances) ∧
      b'.netlist.outputs = b.netlist.outputs := by
  have hrelease : (b.release id).netlist = b.netlist := by
    unfold release
    split <;> rfl
  unfold insertAt at h
  split at h
  · cases h
  · split at h
    · cases h
    · dsimp only at h
      split at h
      · cases h
      · next i' hmake =>
        split at h
        · next netlist hinsert =>
          cases h
          unfold Netlist.insert? at hinsert
          split at hinsert
          · cases hinsert
            exact ⟨hmake, fun j => by rw [Netlist.mem_insert, hrelease], by
              rw [Netlist.outputs_insert, hrelease]⟩
          · cases hinsert
        · cases h

namespace Netlist

/-- Are all ids and wires of a netlist numbered? -/
structure IsNumbered (n : Netlist) : Prop where
  instances : ∀ i ∈ n.instances, i.IsNumbered
  outputs : ∀ o ∈ n.outputs, o.2.IsNumbered

/-- The elements of a member of an accepted object have the form that its schema asks for. -/
theorem accepts_of_mem_memberItems {members : List (String × Json.Schema)} {required : List String}
    {v : Value} (hv : Json.Schema.Accepts (.object members required) v) {k : String}
    {s : Json.Schema}
    (hkey : members.find? (fun m => Text.ofString k == Text.ofString m.1) =
      some (k, .array s)) :
    ∀ x ∈ memberItems v (Text.ofString k), s.Accepts x := by
  intro x hx
  unfold memberItems at hx
  split at hx
  · next items hitems =>
    obtain ⟨values, hvalues, hall⟩ := (hv.object.2 hkey hitems).array
    cases hvalues
    exact hall x hx
  · cases hx

/-- Adding an instance of accepted data keeps a netlist numbered. -/
theorem IsNumbered.insertForm {n n' : Netlist} {v : Value} (hn : n.IsNumbered)
    (hv : instanceSchema.Accepts v) (h : n.insertForm v = .ok n') : n'.IsNumbered := by
  have hid : ∃ id, v.member? (Text.ofString "id") = some id :=
    Option.isSome_iff_exists.1 (hv.object.1 "id" (by simp))
  obtain ⟨id, hid⟩ := hid
  have haccepts : Json.Schema.Accepts .natural id := hv.object.2 (k := "id") rfl hid
  unfold Netlist.insertForm at h
  dsimp only at h
  split at h
  · next b i hinsert =>
    cases h
    rw [hid, Option.getD_some] at hinsert
    have hat : (Builder.ofNetlist n).insertAt id
        { kind := (v.member? "kind").getD .null
          params := .list (memberItems v "params")
          inputs := .list (memberItems v "inputs")
          outputCount := (v.member? "outputs").getD (.int 1) } = (b, .ok i) := by
      cases id with
      | null => exact absurd haccepts (by rintro ⟨path, hp⟩; rw [Json.Schema.check] at hp; cases hp)
      | _ => exact hinsert
    obtain ⟨hmake, hmem, hout⟩ := Builder.insertAt_ok hat
    have hi : i.IsNumbered := Instance.isNumbered_of_make haccepts rfl
      (accepts_of_mem_memberItems (k := "inputs") hv rfl) hmake
    refine ⟨fun j hj => ?_, fun o ho => hn.outputs o (hout ▸ ho)⟩
    rcases (hmem j).1 hj with rfl | hj
    · exact hi
    · exact hn.instances j hj
  · cases h

/-- Naming a wire of accepted data keeps a netlist numbered. -/
theorem IsNumbered.nameOutputForm {n n' : Netlist} {v : Value} (hn : n.IsNumbered)
    (hv : Json.Schema.Accepts (.pair .identifier wireSchema) v)
    (h : n.nameOutputForm v = .ok n') : n'.IsNumbered := by
  obtain ⟨x, y, rfl, -, hy⟩ := hv.pair
  have hname : n.nameOutput x y = .ok n' := h
  unfold nameOutput at hname
  split at hname
  · split at hname
    · split at hname
      · cases hname
      · obtain ⟨w, hw, rfl⟩ := map_eq_ok.1 hname
        refine ⟨hn.instances, fun o ho => ?_⟩
        rw [outputs_append] at ho
        rcases List.mem_append.1 ho with ho | ho
        · exact hn.outputs o ho
        · rw [List.mem_singleton.1 ho]
          exact Wire.isNumbered_ofValue hy hw
    · cases hname
  · cases hname

theorem accepts_of_violations {v : Value} (h : schema.violations v = .ok []) :
    schema.Accepts v := by
  obtain ⟨found, hfound, hsorted⟩ := map_eq_ok.1 h
  have hperm := List.mergeSort_perm found Json.Violation.before
  rw [hsorted] at hperm
  obtain rfl := List.nil_perm.1 hperm
  exact ⟨[], hfound⟩

/-- Data is what is asked for if it is not nested too deeply and violates nothing. -/
theorem checkForm_eq_ok {v : Value} :
    checkForm v = .ok () ↔ v.depth ≤ nestingLimit ∧ schema.violations v = .ok [] := by
  unfold checkForm
  by_cases hdeep : nestingLimit < v.depth
  · rw [if_pos hdeep]
    simp only [reduceCtorEq, false_iff, not_and]
    omega
  · rw [if_neg hdeep]
    have hdepth : v.depth ≤ nestingLimit := by omega
    split
    · next hcause => simp [hcause]
    · next hnil => simp [hdepth, hnil]
    · next found hne hfound =>
      have hsome : found ≠ [] := hne
      simp [hfound, hsome]

/-- The form check passes only what the schema accepts. -/
theorem accepts_of_checkForm {v : Value} (h : checkForm v = .ok ()) : schema.Accepts v :=
  accepts_of_violations (checkForm_eq_ok.1 h).2

/-- Data is read if it has the form that is asked for, and its instances and then its outputs can
be added one by one. -/
theorem ofValue_eq_ok {v : Value} {n : Netlist} :
    ofValue v = .ok n ↔ checkForm v = .ok () ∧
      ∃ m, (memberItems v "instances").foldlM insertForm empty = .ok m ∧
        (memberItems v "outputs").foldlM nameOutputForm m = .ok n := by
  unfold ofValue
  rw [bind_eq_ok]
  constructor
  · rintro ⟨⟨⟩, hform, hbuild⟩
    exact ⟨hform, bind_eq_ok.1 (mapError_eq_ok.1 hbuild)⟩
  · rintro ⟨hform, hbuild⟩
    exact ⟨(), hform, mapError_eq_ok.2 (bind_eq_ok.2 hbuild)⟩

/-- Data is refused for its form, or because an instance or an output cannot be added. -/
theorem ofValue_eq_error {v : Value} {e : Error} :
    ofValue v = .error e ↔ checkForm v = .error e ∨ checkForm v = .ok () ∧ ∃ cause,
      ((memberItems v "instances").foldlM insertForm empty = .error cause ∨
        ∃ m, (memberItems v "instances").foldlM insertForm empty = .ok m ∧
          (memberItems v "outputs").foldlM nameOutputForm m = .error cause) ∧
      rejection cause = e := by
  unfold ofValue
  rw [bind_eq_error]
  constructor
  · rintro (hform | ⟨⟨⟩, hform, hbuild⟩)
    · exact .inl hform
    · obtain ⟨cause, hcause, hrejection⟩ := mapError_eq_error.1 hbuild
      exact .inr ⟨hform, cause, bind_eq_error.1 hcause, hrejection⟩
  · rintro (hform | ⟨hform, cause, hcause, hrejection⟩)
    · exact .inl hform
    · exact .inr ⟨(), hform, mapError_eq_error.2 ⟨cause, bind_eq_error.2 hcause, hrejection⟩⟩

private theorem isNumbered_of_ofValue {v : Value} {n : Netlist} (h : ofValue v = .ok n) :
    n.IsNumbered := by
  obtain ⟨hform, m, hm, hn⟩ := ofValue_eq_ok.1 h
  have hv := accepts_of_checkForm hform
  have hempty : empty.IsNumbered := ⟨fun i hi => (List.not_mem_nil hi).elim, by simp [empty]⟩
  have hinstances := accepts_of_mem_memberItems (k := "instances") hv rfl
  have houtputs := accepts_of_mem_memberItems (k := "outputs") hv rfl
  have hnumbered : m.IsNumbered := foldlM_keeps
    (fun s x t hx hs ht => hs.insertForm (hinstances x hx) ht) hempty hm
  exact foldlM_keeps (fun s x t hx hs ht => hs.nameOutputForm (houtputs x hx) ht) hnumbered hn

/-- Was the netlist read from data, or from a text? -/
def IsLoaded (n : Netlist) : Prop := (∃ v, ofValue v = .ok n) ∨ ∃ t, ofText t = .ok n

/-- A loaded netlist is numbered. -/
theorem IsLoaded.isNumbered {n : Netlist} (h : n.IsLoaded) : n.IsNumbered := by
  rcases h with ⟨v, hv⟩ | ⟨t, ht⟩
  · exact isNumbered_of_ofValue hv
  · obtain ⟨v, -, hv⟩ := bind_eq_ok.1 ht
    exact isNumbered_of_ofValue hv

end Netlist

end Latchwork
