import Latchwork.Proofs.Acceptance

/-!
# How loading fails

Data that is not a netlist is reported as an invalid netlist, with few exceptions. Where the schema
asks for a natural number, a floating-point number is not reported that way: one that is not finite
cannot be tested, and one that equals a natural number passes the schema and is then refused as
being of the wrong type, unless an id or a name is found to be taken before. Data that is nested too
deeply is not looked at. A text adds the limits of the reader.
-/

namespace Latchwork

open Outcome

namespace Json

/-- Why no integer test can be made of a number. -/
def notFinite? : Binary64 → Option NotFinite
  | .nan => some .nan
  | .infinite _ => some .infinity
  | .finite .. => none

/-! ### Numbers that cannot be tested -/

private theorem isIntegral_error {v : Value} {cause : NotFinite} (h : isIntegral v = .error cause) :
    ∃ x, v = .real x ∧ notFinite? x = some cause := by
  cases v with
  | real x =>
    cases x with
    | nan =>
      cases h
      exact ⟨_, rfl, rfl⟩
    | infinite negative =>
      cases h
      exact ⟨_, rfl, rfl⟩
    | finite negative mantissa exponent => cases h
  | _ => cases h

private theorem checkItems_error {check : Check} {path : List String} {position : Nat}
    {values : List Value} {cause : NotFinite}
    (h : checkItems check path position values = .error cause) :
    ∃ v ∈ values, ∃ place, check place v = .error cause := by
  induction values generalizing position with
  | nil => cases h
  | cons v values ih =>
    rw [checkItems] at h
    rcases bind_eq_error.1 h with h | ⟨here, -, h⟩
    · exact ⟨v, .head _, _, h⟩
    · obtain ⟨w, hw, place, herror⟩ := ih (eq_error_of_bind (fun _ => ⟨_, rfl⟩) h)
      exact ⟨w, .tail _ hw, place, herror⟩

private theorem checkItems_ok {check : Check} {path : List String} {position : Nat}
    {values : List Value}
    {found : List Violation} (h : checkItems check path position values = .ok found) :
    ∀ v ∈ values, ∃ place here, check place v = .ok here := by
  induction values generalizing position found with
  | nil => simp
  | cons v values ih =>
    rw [checkItems] at h
    obtain ⟨here, hhere, h⟩ := bind_eq_ok.1 h
    obtain ⟨later, hlater, -⟩ := bind_eq_ok.1 h
    intro w hw
    rcases List.mem_cons.1 hw with rfl | hw
    · exact ⟨_, here, hhere⟩
    · exact ih hlater w hw

section Given

variable {members : List (String × Schema)} {path : List String} {given : List (Text × Value)}

private theorem checkGiven_error {cause : NotFinite}
    (h : checkGiven (Schema.checkers members) path given = .error cause) :
    ∃ m ∈ given, ∃ s, members.find? (fun k => m.1 == Text.ofString k.1) = some s ∧
      ∃ place, s.2.check place m.2 = .error cause := by
  induction given with
  | nil => cases h
  | cons m given ih =>
    obtain ⟨key, v⟩ := m
    rw [checkGiven, Schema.find?_checkers] at h
    cases hfind : members.find? (fun k => key == Text.ofString k.1) with
    | none =>
      rw [hfind] at h
      obtain ⟨m, hm, hrest⟩ := ih (eq_error_of_bind (fun _ => ⟨_, rfl⟩) h)
      exact ⟨m, .tail _ hm, hrest⟩
    | some s =>
      rw [hfind] at h
      rcases bind_eq_error.1 h with h | ⟨here, -, h⟩
      · exact ⟨(key, v), .head _, s, hfind, _, h⟩
      · obtain ⟨m, hm, hrest⟩ := ih (eq_error_of_bind (fun _ => ⟨_, rfl⟩) h)
        exact ⟨m, .tail _ hm, hrest⟩

private theorem checkGiven_ok {found : List Violation}
    (h : checkGiven (Schema.checkers members) path given = .ok found) :
    ∀ m ∈ given, ∀ s, members.find? (fun k => m.1 == Text.ofString k.1) = some s →
      ∃ place here, s.2.check place m.2 = .ok here := by
  induction given generalizing found with
  | nil => simp
  | cons m given ih =>
    obtain ⟨key, v⟩ := m
    rw [checkGiven, Schema.find?_checkers] at h
    intro k hk s hs
    rcases List.mem_cons.1 hk with rfl | hk
    · rw [hs] at h
      obtain ⟨here, hhere, -⟩ := bind_eq_ok.1 h
      exact ⟨_, here, hhere⟩
    · cases hfind : members.find? (fun k => key == Text.ofString k.1) with
      | none =>
        rw [hfind] at h
        obtain ⟨here, -, h⟩ := bind_eq_ok.1 h
        obtain ⟨later, hlater, -⟩ := bind_eq_ok.1 h
        exact ih hlater k hk s hs
      | some t =>
        rw [hfind] at h
        obtain ⟨here, -, h⟩ := bind_eq_ok.1 h
        obtain ⟨later, hlater, -⟩ := bind_eq_ok.1 h
        exact ih hlater k hk s hs

end Given

namespace Schema

/-- Checking fails only at a number that is not finite, where a natural number is wanted. -/
theorem check_error (s : Schema) {path : List String} {v : Value} {cause : NotFinite}
    (h : s.check path v = .error cause) :
    ∃ x, s.Counts v (.real x) ∧ notFinite? x = some cause := by
  match s with
  | .natural =>
    rw [check] at h
    obtain ⟨x, rfl, hx⟩ := isIntegral_error (eq_error_of_bind (fun _ => ⟨_, rfl⟩) h)
    exact ⟨x, .natural _, hx⟩
  | .string =>
    rw [check] at h
    cases h
  | .identifier =>
    unfold check at h
    split at h <;> cases h
  | .array items =>
    unfold check at h
    split at h
    · obtain ⟨v, hv, place, herror⟩ := checkItems_error h
      obtain ⟨x, hcounts, hx⟩ := check_error items herror
      exact ⟨x, .item hv hcounts, hx⟩
    · cases h
  | .pair first second =>
    unfold check at h
    split at h
    · next values =>
      cases values with
      | nil => cases h
      | cons a rest =>
        rcases bind_eq_error.1 h with h | ⟨one, -, h⟩
        · obtain ⟨x, hcounts, hx⟩ := check_error first h
          exact ⟨x, .first hcounts, hx⟩
        · cases rest with
          | nil => cases h
          | cons b rest =>
            obtain ⟨x, hcounts, hx⟩ := check_error second (eq_error_of_bind (fun _ => ⟨_, rfl⟩) h)
            exact ⟨x, .second hcounts, hx⟩
    · cases h
  | .object members required =>
    unfold check at h
    split at h
    · next given =>
      obtain ⟨m, hm, s, hs, place, herror⟩ :=
        checkGiven_error (eq_error_of_bind (fun _ => ⟨_, rfl⟩) h)
      have hmem := List.mem_of_find?_eq_some hs
      obtain ⟨x, hcounts, hx⟩ := check_error s.2 herror
      exact ⟨x, .member hm hs hcounts, hx⟩
    · cases h
termination_by sizeOf s
decreasing_by
  all_goals simp_wf
  all_goals try omega
  have hsize := List.sizeOf_lt_of_mem hmem
  have hpair : sizeOf s.2 < sizeOf s := by
    cases s
    simp
  omega

/-- Where a check comes to an end, it has tested every number that stands where one is wanted. -/
theorem Counts.finite_of_check {s : Schema} {v y : Value} (h : s.Counts v y) {x : Binary64}
    (hy : y = .real x) {path : List String} {found : List Violation}
    (hcheck : s.check path v = .ok found) : notFinite? x = none := by
  induction h generalizing path found with
  | natural v =>
    subst hy
    rw [check] at hcheck
    obtain ⟨integral, hintegral, -⟩ := bind_eq_ok.1 hcheck
    cases x with
    | finite negative mantissa exponent => rfl
    | _ => cases hintegral
  | item hv _ ih =>
    rw [check] at hcheck
    obtain ⟨place, here, hhere⟩ := checkItems_ok hcheck _ hv
    exact ih hy hhere
  | first _ ih =>
    unfold check at hcheck
    obtain ⟨one, hone, -⟩ := bind_eq_ok.1 hcheck
    exact ih hy hone
  | second _ ih =>
    unfold check at hcheck
    obtain ⟨one, -, hcheck⟩ := bind_eq_ok.1 hcheck
    obtain ⟨two, htwo, -⟩ := bind_eq_ok.1 hcheck
    exact ih hy htwo
  | member hm hs _ ih =>
    unfold check at hcheck
    obtain ⟨inner, hinner, -⟩ := bind_eq_ok.1 hcheck
    obtain ⟨place, here, hhere⟩ := checkGiven_ok hinner _ hm _ hs
    exact ih hy hhere

end Schema

end Json

namespace Netlist

/-! ### Values -/

/-- Does loading give a netlist, or report an invalid one? -/
def IsReported (loaded : Except Error Netlist) : Prop :=
  (∃ n, loaded = .ok n) ∨ ∃ e, loaded = .error e ∧ e.family = .invalidNetlist

/-- The data whose loading fails in another way, with the errors that are then possible. A
floating-point number counts only if everything that is added before it can be added. -/
inductive Unreported (v : Value) : Error → Prop where
  | nesting (h : nestingLimit < v.depth) : Unreported v .nesting
  | notFinite {x : Binary64} {cause : Json.NotFinite} (h : schema.Counts v (.real x))
    (hx : Json.notFinite? x = some cause) : Unreported v (.notFinite cause)
  | inInstance {before after : List Value} {item : Value} {x : Binary64} {e : Error}
    (hvalid : schema.violations v = .ok [])
    (hitems : memberItems v "instances" = before ++ item :: after)
    (hbefore : IsInstanceTable before)
    (hnew : ∀ y ∈ before, (formId y).natural? ≠ (formId item).natural?)
    (hx : instanceSchema.Counts item (.real x)) (he : e.NamesReal x) : Unreported v e
  | inOutput {before after : List Value} {name : Text} {wire : Value} {x : Binary64} {e : Error}
    (hvalid : schema.violations v = .ok [])
    (hinstances : IsInstanceTable (memberItems v "instances"))
    (hitems : memberItems v "outputs" = before ++ .list [.text name, wire] :: after)
    (hbefore : IsOutputTable before) (hname : name.isIdentifier = true)
    (hnew : ∀ y ∈ before, firstItem? y ≠ some (.text name))
    (hx : wireSchema.Counts wire (.real x)) (he : e.NamesReal x) : Unreported v e

section Refusals

variable {x : Binary64} {e : Error}

private theorem family_of_namesReal (h : e.NamesReal x) : e.family = .wrongType := by
  cases h <;> rfl

private theorem rejection_of_namesReal (h : e.NamesReal x) : rejection e = e := by
  have hraised : e.raised = e := by cases h <;> rfl
  rw [rejection, hraised, family_of_namesReal h]

private theorem family_rejection (h : e.family = .malformedInstance ∨ e.family = .badValue) :
    (rejection e).family = .invalidNetlist := by
  have hraised : e.raised.family = .malformedInstance ∨ e.raised.family = .badValue := by
    unfold Error.raised
    split
    · exact .inr rfl
    · exact h
  rcases hraised with hraised | hraised <;> rw [rejection, hraised] <;> rfl

variable {before : List Value} {n : Netlist}

private theorem Gathered.new_iff (h : Gathered before n) {v : Value} :
    (∀ j ∈ n.instances, v.natural? ≠ some j.id.value) ↔
      ∀ y ∈ before, (formId y).natural? ≠ v.natural? := by
  have hnatural : ∀ j : Instance, j.id.toValue.natural? = some j.id.value := fun j =>
    Value.natural?_of_index? j.id.index?_toValue
  constructor
  · intro hnew y hy heq
    obtain ⟨j, hj, hform⟩ := h.exists_instance hy
    have hid : formId y = j.id.toValue := congrArg formId hform
    rw [hid, hnatural] at heq
    exact hnew j hj heq.symm
  · intro hnew j hj heq
    obtain ⟨y, hy, hid⟩ := h.exists_form hj
    refine hnew y hy ?_
    rw [hid, hnatural, heq]

/-- The first floating-point number in place of a natural number is refused. -/
theorem insertForm_refused {item : Value} (hn : Gathered before n)
    (haccepts : instanceSchema.Accepts item) (hkeyed : item.Keyed)
    (hnew : ∀ y ∈ before, (formId y).natural? ≠ (formId item).natural?)
    (hx : instanceSchema.Counts item (.real x)) :
    ∃ x e, Error.NamesReal x e ∧ n.insertForm item = .error e := by
  have heffect := formEffect n haccepts
  cases houtcome : n.insertForm item with
  | ok n' =>
    rw [houtcome] at heffect
    cases heffect with
    | inserts hfree hi hcompleted =>
      exact absurd hx (not_counts_of_completed hkeyed hcompleted x)
  | error e =>
    rw [houtcome] at heffect
    cases heffect with
    | taken hj hid => exact absurd hid (hn.new_iff.2 hnew _ hj)
    | refuses _ he _ => exact ⟨_, e, he, rfl⟩

private theorem Named.mem_iff (h : Named before n) {name : Text} :
    name ∈ n.outputs.map Prod.fst ↔ ∃ y ∈ before, firstItem? y = some (.text name) := by
  rw [← h.forms]
  simp [firstItem?, outputForm]

private theorem nameOutputForm_refused {name : Text} {wire : Value} (hn : Named before n)
    (haccepts : outputSchema.Accepts (.list [.text name, wire])) (hname : name.isIdentifier = true)
    (hnew : ∀ y ∈ before, firstItem? y ≠ some (.text name))
    (hx : wireSchema.Counts wire (.real x)) :
    ∃ x e, Error.NamesReal x e ∧ n.nameOutputForm (.list [.text name, wire]) = .error e := by
  have heffect := outputEffect n haccepts
  cases houtcome : n.nameOutputForm (.list [.text name, wire]) with
  | ok n' =>
    rw [houtcome] at heffect
    cases heffect with
    | @names _ w _ _ _ hform =>
      simp only [outputForm, Value.list.injEq, List.cons.injEq] at hform
      obtain ⟨-, rfl, -⟩ := hform
      exact absurd hx (w.not_counts_toValue x)
  | error e =>
    rw [houtcome] at heffect
    cases heffect with
    | notIdentifier hform hno =>
      simp only [Value.list.injEq, List.cons.injEq, Value.text.injEq] at hform
      rw [← hform.1, hname] at hno
      cases hno
    | defined hform hdefined =>
      simp only [Value.list.injEq, List.cons.injEq, Value.text.injEq] at hform
      rw [← hform.1] at hdefined
      obtain ⟨y, hy, hfirst⟩ := hn.mem_iff.1 hdefined
      exact absurd hfirst (hnew y hy)
    | refuses _ _ _ _ he => exact ⟨_, e, he, rfl⟩

end Refusals

variable {v : Value} {e : Error}

private theorem accepts_instances (h : schema.violations v = .ok []) :
    ∀ x ∈ memberItems v "instances", instanceSchema.Accepts x :=
  accepts_of_mem_memberItems (k := "instances") (accepts_of_violations h) rfl

private theorem accepts_outputs (h : schema.violations v = .ok []) :
    ∀ x ∈ memberItems v "outputs", outputSchema.Accepts x :=
  accepts_of_mem_memberItems (k := "outputs") (accepts_of_violations h) rfl

private theorem checkForm_error (h : checkForm v = .error e) :
    e.family = .invalidNetlist ∨ Unreported v e := by
  unfold checkForm at h
  split at h
  · next hdeep =>
    cases h
    exact .inr (.nesting hdeep)
  · split at h
    · next cause hcause =>
      cases h
      have hcheck : schema.check [] v = .error cause := by
        unfold Json.Schema.violations at hcause
        cases hfound : schema.check [] v with
        | error e =>
          rw [hfound] at hcause
          exact hcause
        | ok found =>
          rw [hfound] at hcause
          cases hcause
      obtain ⟨x, hcounts, hx⟩ := Json.Schema.check_error schema hcheck
      exact .inr (.notFinite hcounts hx)
    · cases h
    · cases h
      exact .inl rfl

/-- An error that does not report an invalid netlist has one of the known reasons. -/
theorem ofValue_error (hv : v.Keyed) (h : ofValue v = .error e) :
    e.family = .invalidNetlist ∨ Unreported v e := by
  rcases ofValue_eq_error.1 h with hform | ⟨hform, cause, hcause, rfl⟩
  · exact checkForm_error hform
  · have hvalid := (checkForm_eq_ok.1 hform).2
    have hinstances := accepts_instances hvalid
    have houtputs := accepts_outputs hvalid
    have hkeyed : ∀ x ∈ memberItems v "instances", x.Keyed := keyed_of_mem_memberItems hv
    rcases hcause with hcause | ⟨m, hm, hcause⟩
    · obtain ⟨before, item, after, n, hitems, hn, herror⟩ := foldlM_eq_error.1 hcause
      rw [hitems] at hinstances hkeyed
      have hgathered := (gathered_of_foldlM (fun x hx => hinstances x (by simp [hx])) hn).1
      have heffect := formEffect n (hinstances item (by simp))
      rw [herror] at heffect
      cases heffect with
      | taken hj hid => exact .inl (family_rejection (.inl rfl))
      | refuses hx he hnew =>
        have htable := hgathered.isInstanceTable (fun x hx => hinstances x (by simp [hx]))
          fun x hx => hkeyed x (by simp [hx])
        rw [rejection_of_namesReal he]
        exact .inr (.inInstance hvalid hitems htable (hgathered.new_iff.1 hnew) hx he)
    · obtain ⟨hgathered, hempty⟩ := gathered_of_foldlM hinstances hm
      obtain ⟨before, item, after, n, hitems, hn, herror⟩ := foldlM_eq_error.1 hcause
      rw [hitems] at houtputs
      have hnamed := (named_of_foldlM (fun x hx => houtputs x (by simp [hx])) hempty hn).1
      have heffect := outputEffect n (houtputs item (by simp))
      rw [herror] at heffect
      cases heffect with
      | notIdentifier hform hno => exact .inl (family_rejection (.inr rfl))
      | defined hform hdefined => exact .inl (family_rejection (.inr rfl))
      | refuses hform hname hnew hx he =>
        rw [hform] at hitems
        have hnames : ∀ y ∈ before, firstItem? y ≠ some (.text _) := fun y hy hfirst =>
          hnew (hnamed.mem_iff.2 ⟨y, hy, hfirst⟩)
        rw [rejection_of_namesReal he]
        exact .inr (.inOutput hvalid (hgathered.isInstanceTable hinstances hkeyed) hitems
          hnamed.isOutputTable hname hnames hx he)

private theorem exists_error_of_namesReal {x : Binary64} {cause : Error}
    (hform : checkForm v = .ok ())
    (hcause : (memberItems v "instances").foldlM insertForm empty = .error cause ∨
      ∃ m, (memberItems v "instances").foldlM insertForm empty = .ok m ∧
        (memberItems v "outputs").foldlM nameOutputForm m = .error cause)
    (h : cause.NamesReal x) : ∃ e, ofValue v = .error e ∧ e.family ≠ .invalidNetlist := by
  have herror := ofValue_eq_error.2 (.inr ⟨hform, cause, hcause, rejection_of_namesReal h⟩)
  exact ⟨cause, herror, by simp [family_of_namesReal h]⟩

/-- Data with one of the known reasons fails in another way than as an invalid netlist. -/
theorem Unreported.exists_error (hv : v.Keyed) (h : Unreported v e) :
    ∃ e, ofValue v = .error e ∧ e.family ≠ .invalidNetlist := by
  by_cases hdeep : nestingLimit < v.depth
  · refine ⟨.nesting, ofValue_eq_error.2 (.inl ?_), by simp [Error.family]⟩
    rw [checkForm, if_pos hdeep]
  · have hdepth : v.depth ≤ nestingLimit := by omega
    cases h with
    | nesting h => exact absurd h hdeep
    | @notFinite x cause hcounts hx =>
      cases hfound : schema.violations v with
      | ok found =>
        obtain ⟨here, hcheck, -⟩ := map_eq_ok.1 hfound
        rw [hcounts.finite_of_check rfl hcheck] at hx
        cases hx
      | error cause =>
        refine ⟨.notFinite cause, ofValue_eq_error.2 (.inl ?_), ?_⟩
        · rw [checkForm, if_neg hdeep, hfound]
        · cases cause <;> simp [Error.family]
    | @inInstance before after item x _ hvalid hitems hbefore hnew hx he =>
      have hinstances := accepts_instances hvalid
      have hkeyed : ∀ x ∈ memberItems v "instances", x.Keyed := keyed_of_mem_memberItems hv
      rw [hitems] at hinstances hkeyed
      obtain ⟨n, hn⟩ := hbefore.exists_foldlM
      have hgathered := (gathered_of_foldlM (fun x hx => hinstances x (by simp [hx])) hn).1
      obtain ⟨y, cause, hcause, herror⟩ := insertForm_refused hgathered (hinstances item (by simp))
        (hkeyed item (by simp)) hnew hx
      exact exists_error_of_namesReal (checkForm_eq_ok.2 ⟨hdepth, hvalid⟩)
        (.inl (foldlM_eq_error.2 ⟨before, item, after, n, hitems, hn, herror⟩)) hcause
    | @inOutput before after name wire x _ hvalid hinstances hitems hbefore hname hnew hx he =>
      have houtputs := accepts_outputs hvalid
      rw [hitems] at houtputs
      obtain ⟨m, hm⟩ := hinstances.exists_foldlM
      have hempty := (gathered_of_foldlM (accepts_instances hvalid) hm).2
      obtain ⟨n, hn⟩ := hbefore.exists_foldlM hempty
      have hnamed := (named_of_foldlM (fun x hx => houtputs x (by simp [hx])) hempty hn).1
      obtain ⟨y, cause, hcause, herror⟩ := nameOutputForm_refused hnamed (houtputs _ (by simp))
        hname hnew hx
      exact exists_error_of_namesReal (checkForm_eq_ok.2 ⟨hdepth, hvalid⟩)
        (.inr ⟨m, hm, foldlM_eq_error.2 ⟨before, _, after, n, hitems, hn, herror⟩⟩) hcause

/-! ### Texts -/

/-- The same for texts: a text can be beyond the limits of the reader, or it is read and the data is
not reported. -/
inductive UnreportedText (t : Text) : Error → Prop where
  | tooManyDigits {count : Nat} (hread : Json.read t = .error (.tooManyDigits count))
    (hlimit : Numeral.digitLimit < count) (h : Json.HasDigits t.points count) :
    UnreportedText t (.unreadable (.tooManyDigits count))
  | tooDeep (hread : Json.read t = .error .tooDeep)
    (h : Json.nestingLimit < t.points.countP Json.isBracket) :
    UnreportedText t (.unreadable .tooDeep)
  | value {v : Value} {e : Error} (hread : Json.read t = .ok v) (h : Unreported v e) :
    UnreportedText t e

variable {t : Text}

private theorem ofText_eq_error : ofText t = .error e ↔
    (∃ cause, Json.read t = .error cause ∧ Error.unreadable cause = e) ∨
      ∃ v, Json.read t = .ok v ∧ ofValue v = .error e := by
  unfold ofText
  rw [bind_eq_error, mapError_eq_error]
  simp only [mapError_eq_ok]

private theorem ofText_error (h : ofText t = .error e) :
    e.family = .invalidNetlist ∨ UnreportedText t e := by
  rcases ofText_eq_error.1 h with ⟨cause, hcause, rfl⟩ | ⟨v, hread, h⟩
  · cases Json.readFailure hcause with
    | malformed fault place => exact .inl rfl
    | tooManyDigits hlimit hdigits => exact .inr (.tooManyDigits hcause hlimit hdigits)
    | tooDeep hdepth => exact .inr (.tooDeep hcause hdepth)
  · rcases ofValue_error (Json.keyed_of_read hread) h with hfamily | hunreported
    · exact .inl hfamily
    · exact .inr (.value hread hunreported)

private theorem UnreportedText.exists_error (h : UnreportedText t e) :
    ∃ e, ofText t = .error e ∧ e.family ≠ .invalidNetlist := by
  cases h with
  | tooManyDigits hread hlimit h =>
    exact ⟨_, ofText_eq_error.2 (.inl ⟨_, hread, rfl⟩), by simp [Error.family]⟩
  | tooDeep hread h => exact ⟨_, ofText_eq_error.2 (.inl ⟨_, hread, rfl⟩), by simp [Error.family]⟩
  | value hread h =>
    obtain ⟨e, herror, hfamily⟩ := h.exists_error (Json.keyed_of_read hread)
    exact ⟨e, ofText_eq_error.2 (.inr ⟨_, hread, herror⟩), hfamily⟩

private theorem isReported_iff {loaded : Except Error Netlist} {U : Error → Prop}
    (herror : ∀ e, loaded = .error e → e.family = .invalidNetlist ∨ U e)
    (hunreported : ∀ e, U e → ∃ e, loaded = .error e ∧ e.family ≠ .invalidNetlist) :
    IsReported loaded ↔ ∀ e, ¬U e := by
  constructor
  · intro h e he
    obtain ⟨e, he, hfamily⟩ := hunreported e he
    rcases h with ⟨n, hn⟩ | ⟨e', he', hinvalid⟩
    · cases hn.symm.trans he
    · cases he'.symm.trans he
      exact hfamily hinvalid
  · intro h
    cases loaded with
    | ok n => exact .inl ⟨n, rfl⟩
    | error e => exact .inr ⟨e, rfl, (herror e rfl).resolve_right (h e)⟩

/-- Loading gives a netlist or reports an invalid one, exactly unless the data or the text is nested
too deeply, has too long a number, or has a floating-point number where a natural number is wanted
and nothing wrong before that; any other error is the one that belongs to this reason. -/
theorem load_reported_iff (v : Value) (hv : v.Keyed) (t : Text) :
    (IsReported (ofValue v) ↔ ∀ e, ¬Unreported v e) ∧
      (∀ e, ofValue v = .error e → e.family ≠ .invalidNetlist → Unreported v e) ∧
      (IsReported (ofText t) ↔ ∀ e, ¬UnreportedText t e) ∧
      ∀ e, ofText t = .error e → e.family ≠ .invalidNetlist → UnreportedText t e := by
  refine ⟨?_, ?_, ?_, ?_⟩
  · exact isReported_iff (fun e he => ofValue_error hv he) fun e he => he.exists_error hv
  · exact fun e he hfamily => (ofValue_error hv he).resolve_left hfamily
  · exact isReported_iff (fun e he => ofText_error he) fun e he => he.exists_error
  · exact fun e he hfamily => (ofText_error he).resolve_left hfamily

/-- The number 2, written with a decimal point. -/
def pointedTwo : Binary64 := .ofDecimal false 20 (-1)

/-- Data with an instance whose id is written with a decimal point. -/
def pointedId : Value :=
  .object
    [("instances", .list [.object [("id", .real pointedTwo), ("kind", .text "high")]]),
      ("outputs", .list [])]

/-- The same data as a text. -/
def pointedText : Text :=
  "\x7b\"instances\": [\x7b\"id\": 2.0, \"kind\": \"high\"\x7d], \"outputs\": []\x7d"

private theorem ofValue_pointedId : ofValue pointedId = .error
    (.instanceId (.real pointedTwo)) := by
  cbv

private theorem ofText_pointedText : ofText pointedText = .error
    (.instanceId (.real pointedTwo)) := by
  cbv

private theorem keyed_pointedId : pointedId.Keyed := by
  refine .object (by simp [Text.ofString_inj]) ?_
  simp only [List.forall_mem_cons]
  refine ⟨.list ?_, .list (by simp), by simp⟩
  simp only [List.forall_mem_cons]
  refine ⟨.object (by simp [Text.ofString_inj]) ?_, by simp⟩
  simp [Value.Keyed.real, Value.Keyed.text]

theorem pointedId_unreported :
    pointedId.Keyed ∧ Unreported pointedId (.instanceId (.real pointedTwo)) ∧
      UnreportedText pointedText (.instanceId (.real pointedTwo)) := by
  have hfamily : (Error.instanceId (.real pointedTwo)).family ≠ .invalidNetlist := by
    simp [Error.family]
  obtain ⟨-, hvalue, -, htext⟩ := load_reported_iff pointedId keyed_pointedId pointedText
  exact ⟨keyed_pointedId, hvalue _ ofValue_pointedId hfamily, htext _ ofText_pointedText hfamily⟩

/-- Loading can fail in another way than as an invalid netlist, from data and from a text. -/
theorem pointedId_wrongType :
    (∃ e, ofValue pointedId = .error e ∧ e.family = .wrongType) ∧
      ∃ e, ofText pointedText = .error e ∧ e.family = .wrongType :=
  ⟨⟨_, ofValue_pointedId, rfl⟩, _, ofText_pointedText, rfl⟩

end Netlist

end Latchwork
