import Latchwork.Procedure.Source
import Latchwork.Proofs.Name
import Latchwork.Proofs.Synchronous

/-!
# The outcome of compilation

Compilation asks for seven things, one after another: wires that lead somewhere, instances that pass
their check, no combinational cycle, an exit flag, a name for the circuit, names for the inputs, and
in the C dialect no more outputs than fit its result. It succeeds exactly if all are given, and
otherwise fails with the fault of the first that is not. Where several instances are at fault, it is
the one with the smallest id that is reported.
-/

namespace Latchwork

open Outcome

/-! ### Names -/

/-- Has the text the form of generated names: a letter for wires or memories, a decimal number, and
possibly a low line with characters of identifiers after it? -/
def Text.IsGenerated (t : Text) : Prop :=
  ∃ (letter : Char) (digits tail : List Char), (letter = 'w' ∨ letter = 'm') ∧ digits ≠ [] ∧
    (∀ c ∈ digits, c.isDigit = true) ∧ Name.IsTail tail ∧
    t.points = (letter :: (digits ++ tail)).map .char

private theorem isGeneratedName_iff {t : Text} : isGeneratedName t = true ↔ t.IsGenerated := by
  constructor
  · intro h
    unfold isGeneratedName at h
    split at h
    · next rest hpoints =>
      obtain ⟨digits, tail, hne, hdigits, htail, rfl⟩ := isNumbered_iff.1 h
      exact ⟨'w', digits, tail, .inl rfl, hne, hdigits, htail, hpoints⟩
    · next rest hpoints =>
      obtain ⟨digits, tail, hne, hdigits, htail, rfl⟩ := isNumbered_iff.1 h
      exact ⟨'m', digits, tail, .inr rfl, hne, hdigits, htail, hpoints⟩
    · cases h
  · rintro ⟨letter, digits, tail, hletter, hne, hdigits, htail, hpoints⟩
    have hnumbered : isGeneratedName.isNumbered ((digits ++ tail).map .char) = true :=
      isNumbered_iff.2 ⟨digits, tail, hne, hdigits, htail, rfl⟩
    rw [isGeneratedName, hpoints, List.map_cons]
    rcases hletter with rfl | rfl
    · exact hnumbered
    · exact hnumbered

namespace Dialect

variable {d : Dialect} {name : Text} {owner : Option Value} {e : Error}

/-- May the text name a circuit or an input? -/
structure Allows (d : Dialect) (name : Text) : Prop where
  identifier : Text.isIdentifier name = true
  free : ∀ word ∈ d.reservedWords, name ≠ word
  notGenerated : ¬name.IsGenerated

/-- What is wrong with a name: that of a circuit, or that of the input which an instance stands
for. -/
inductive NameFault (d : Dialect) (name : Text) : Option Value → Error → Prop where
  | circuit (h : Text.isIdentifier name = false) : NameFault d name none (.notIdentifier name)
  | input {id : Value} (h : Text.isIdentifier name = false) :
    NameFault d name (some id) (.inputNotIdentifier name id)
  | reserved {owner : Option Value} (h : Text.isIdentifier name = true) {word : String}
    (hword : word ∈ d.reservedWords) (heq : name = word) :
    NameFault d name owner (.reservedWord name owner)
  | generated {owner : Option Value} (h : Text.isIdentifier name = true)
    (hfree : ∀ word ∈ d.reservedWords, name ≠ word) (hform : name.IsGenerated) :
    NameFault d name owner (.generatedName name owner)

private theorem NameFault.not_allows (h : d.NameFault name owner e) : ¬d.Allows name := by
  intro hallows
  cases h with
  | circuit h | input h => cases h.symm.trans hallows.identifier
  | reserved h hword heq => exact hallows.free _ hword heq
  | generated h hfree hform => exact hallows.notGenerated hform

/-- The check of a name passes if the name is allowed, and otherwise tells its fault. -/
theorem checkName_cases (d : Dialect) (name : Text) (owner : Option Value) :
    d.checkName name owner = .ok () ∧ d.Allows name ∨
      ∃ e, d.checkName name owner = .error e ∧ d.NameFault name owner e := by
  unfold checkName
  by_cases hid : Text.isIdentifier name = true
  · by_cases hword : ∃ word ∈ d.reservedWords, name = word
    · obtain ⟨word, hmem, heq⟩ := hword
      have hany : (d.reservedWords.any fun word => name == word) = true :=
        List.any_eq_true.2 ⟨word, hmem, beq_iff_eq.2 heq⟩
      exact .inr ⟨_, by simp [hid, hany], .reserved hid hmem heq⟩
    · have hfree : ∀ word ∈ d.reservedWords, name ≠ word := fun word hmem heq =>
        hword ⟨word, hmem, heq⟩
      have hany : (d.reservedWords.any fun word => name == word) = false := by
        simpa using hfree
      by_cases hform : name.IsGenerated
      · exact .inr ⟨_, by simp [hid, hany, isGeneratedName_iff.2 hform], .generated hid hfree hform⟩
      · have hname : isGeneratedName name = false :=
          Bool.eq_false_iff.2 fun h => hform (isGeneratedName_iff.1 h)
        exact .inl ⟨by simp [hid, hany, hname], hid, hfree, hform⟩
  · have hid : Text.isIdentifier name = false := by simpa using hid
    cases owner with
    | none => exact .inr ⟨_, by simp [hid], .circuit hid⟩
    | some id => exact .inr ⟨_, by simp [hid], .input hid⟩

/-- A name that passes its check is allowed. -/
theorem allows_of_checkName (h : d.checkName name owner = .ok ()) : d.Allows name := by
  rcases checkName_cases d name owner with ⟨-, hallows⟩ | ⟨e, he, -⟩
  · exact hallows
  · cases he.symm.trans h

private theorem nameFault_of_checkName (h : d.checkName name owner = .error e) :
    d.NameFault name owner e := by
  rcases checkName_cases d name owner with ⟨hok, -⟩ | ⟨e', he, hfault⟩
  · cases hok.symm.trans h
  · cases he.symm.trans h
    exact hfault

end Dialect

/-! ### Wires and instances -/

private theorem Instance.kind_eq_of_primitive {i : Instance} {kind : Primitive}
    (h : i.primitive = .ok kind) : i.kind = kind.text := by
  unfold primitive Primitive.ofValue at h
  split at h
  · next hfound =>
    cases h
    exact beq_iff_eq.1 (List.find?_some hfound :)
  · cases h

/-- The input that a checked instance stands for has the name that the instance is given. -/
theorem Component.inputName?_eq [Machine] {i : Instance} {c : Component}
    (h : ofInstance i = .ok c) :
    c.inputName? = Netlist.inputName? i := by
  obtain ⟨-, hkind, hfor, -⟩ := ofInstance_ok h
  have htext := Instance.kind_eq_of_primitive hkind
  unfold inputName? Netlist.inputName?
  rw [htext]
  generalize c.kind = kind at hfor
  generalize c.cell = cell at hfor
  cases hfor with
  | name hinputs hname => exact (Instance.param?_eq_some hname).symm
  | memory hmemory =>
    cases kind with
    | ram | dualRam => rfl
    | _ => cases hmemory
  | _ => rfl

namespace Netlist

variable {n : Netlist} {site : Site} {w : Wire} {e : Error}

/-- What is wrong with a wire that is used somewhere: its instance is not there, or has not so many
outputs. -/
inductive WireFault (n : Netlist) (site : Site) (w : Wire) : Error → Prop where
  | noInstance (h : ∀ i ∈ n.instances, i.id.value ≠ w.driver.value) :
    WireFault n site w (.noInstance site w.driver)
  | noOutput {i : Instance} (hi : i ∈ n.instances) (hid : i.id.value = w.driver.value)
    (hport : i.outputCount.value ≤ w.port.value) :
    WireFault n site w (.noOutput site w.port i.id i.kind i.outputCount)

private theorem WireFault.not_hasWire (h : n.WireFault site w e) :
    ¬n.HasWire w.driver.value w.port.value := by
  rintro ⟨i, hi, hid, hport⟩
  cases h with
  | noInstance h => exact h i hi hid
  | noOutput hj hjd hle =>
    obtain rfl := eq_of_id_eq hi hj (hid.trans hjd.symm)
    omega

/-- A wire that fails its check, at a place that can be spelled out, has the fault that is told. -/
theorem wireFault_of_checkWire (hshort : ∀ k ∈ site.numerals, Numeral.isTooLong k = false)
    (h : n.checkWire site w = .error e) : n.WireFault site w e := by
  have hsite : site.written = .ok site.text := Numeral.written_eq_ok.2 ⟨hshort, rfl⟩
  unfold checkWire at h
  rw [hsite, Except.bind] at h
  split at h
  · next hfind =>
    cases h
    refine .noInstance fun i hi hid => ?_
    cases (find?_eq_some_iff.2 ⟨hi, hid⟩).symm.trans hfind
  · next i hfind =>
    obtain ⟨hi, hid⟩ := find?_eq_some_iff.1 hfind
    split at h
    · cases h
    · next hport =>
      cases h
      exact .noOutput hi hid (Nat.le_of_not_lt hport)

/-- The fault of the first input of an instance that leads nowhere. -/
def InputFault (n : Netlist) (i : Instance) (e : Error) : Prop :=
  ∃ before w after, i.inputs = before ++ w :: after ∧
    (∀ v ∈ before, n.HasWire v.driver.value v.port.value) ∧
    n.WireFault (.input before.length i.id i.kind) w e

/-- The fault of the first output, in the order of the table, that leads nowhere. -/
def OutputFault (n : Netlist) (e : Error) : Prop :=
  ∃ before o after, n.outputs = before ++ o :: after ∧
    (∀ b ∈ before, n.HasWire b.2.driver.value b.2.port.value) ∧
    n.WireFault (.output o.1) o.2 e

/-- The fault of the instance with the smallest id among those that have one. -/
def LeastFault (n : Netlist) (fault : Instance → Error → Prop) (e : Error) : Prop :=
  ∃ i ∈ n.instances, fault i e ∧
    ∀ j ∈ n.instances, j.id.value < i.id.value → ∀ other, ¬fault j other

private theorem leastFault_of_split {fault : Instance → Error → Prop} {before after : List Instance}
    {i : Instance} (hsplit : n.instances = before ++ i :: after)
    (hbefore : ∀ j ∈ before, ∀ other, ¬fault j other) (hi : fault i e) : n.LeastFault fault e := by
  have hascending := n.ascending
  rw [hsplit, List.pairwise_append] at hascending
  refine ⟨i, by simp [hsplit], hi, fun j hj hlt => ?_⟩
  -- what has a smaller id stands before it
  rw [hsplit] at hj
  rcases List.mem_append.1 hj with hj | hj
  · exact hbefore j hj
  · rcases List.mem_cons.1 hj with rfl | hj
    · omega
    · have := (List.pairwise_cons.1 hascending.2.1).1 j hj
      omega

/-- Inputs of an instance that fail their check have a first one at fault. -/
theorem checkInputs_eq_error {i : Instance} (hshort : i.id.IsShort)
    (h : n.checkInputs i = .error e) : n.InputFault i e := by
  obtain ⟨before, ⟨w, k⟩, after, hsplit, hbefore, hw⟩ := forM_eq_error.1 h
  have hinputs := congrArg (List.map Prod.fst) hsplit
  rw [List.zipIdx_map_fst, List.map_append, List.map_cons] at hinputs
  have hlength : k = before.length := by
    have hk : i.inputs.zipIdx[before.length]? = some (w, k) := by simp [hsplit]
    simp only [List.getElem?_zipIdx, Option.map_eq_some_iff, Prod.mk.injEq] at hk
    obtain ⟨v, -, -, hk⟩ := hk
    omega
  refine ⟨before.map Prod.fst, w, after.map Prod.fst, hinputs, ?_, ?_⟩
  · intro v hv
    obtain ⟨⟨v, m⟩, hm, rfl⟩ := List.mem_map.1 hv
    exact (checkWire_eq_ok.1 (hbefore _ hm)).2
  · rw [List.length_map, ← hlength]
    exact wireFault_of_checkWire hshort hw

/-- The fault of the name of the input that an instance stands for. -/
def InputNameFault (d : Dialect) (i : Instance) (e : Error) : Prop :=
  ∃ input, inputName? i = some input ∧ d.NameFault input (some i.id.toValue) e

/-! ### Requirements -/

/-- What compilation asks for. -/
inductive Requirement where
  | wires
  | instances
  | acyclic
  | exitFlag
  | circuitName
  | inputNames
  | outputCount
  deriving DecidableEq

/-- The order in which compilation asks. -/
def Requirement.order : List Requirement :=
  [.wires, .instances, .acyclic, .exitFlag, .circuitName, .inputNames, .outputCount]

/-- Is a requirement met, for a dialect, a name of the circuit and an exit flag? -/
def Meets [Machine] (n : Netlist) (d : Dialect) (name done : Text) : Requirement → Prop
  | .wires =>
    (∀ i ∈ n.instances, ∀ w ∈ i.inputs, n.HasWire w.driver.value w.port.value) ∧
      ∀ o ∈ n.outputs, n.HasWire o.2.driver.value o.2.port.value
  | .instances => ∀ i ∈ n.instances, ∃ c, Component.ofInstance i = .ok c
  | .acyclic => ¬∃ i, Relation.TransGen n.Reads i i
  | .exitFlag => ∃ w, (done, w) ∈ n.outputs
  | .circuitName => d.Allows name
  | .inputNames => ∀ i ∈ n.instances, ∀ input ∈ inputName? i, d.Allows input
  | .outputCount => d = .c → n.outputs.length ≤ 64

/-- The error that a requirement which is not met is reported with. Inputs of instances are judged
before outputs. -/
def Reports [Machine] (n : Netlist) (d : Dialect) (name done : Text) : Requirement → Error → Prop
  | .wires, e =>
    n.LeastFault n.InputFault e ∨
      (∀ i ∈ n.instances, ∀ w ∈ i.inputs, n.HasWire w.driver.value w.port.value) ∧ n.OutputFault e
  | .instances, e => n.LeastFault (fun i e => Component.ofInstance i = .error e) e
  | .acyclic, e => (∃ i, Relation.TransGen n.Reads i i) ∧ ∃ ids, e = .cycle ids
  | .exitFlag, e => (∀ w, (done, w) ∉ n.outputs) ∧ e = .missingOutput (.text done)
  | .circuitName, e => d.NameFault name none e
  | .inputNames, e => n.LeastFault (InputNameFault d) e
  | .outputCount, e => d = .c ∧ 64 < n.outputs.length ∧ e = .tooManyOutputs n.outputs.length

/-- The error of the first of some requirements that is not met. -/
def ReportsFirst [Machine] (n : Netlist) (d : Dialect) (name done : Text) (rs : List Requirement)
    (e : Error) : Prop :=
  ∃ before r after, rs = before ++ r :: after ∧ (∀ b ∈ before, n.Meets d name done b) ∧
    n.Reports d name done r e

/-- Can the numbers that a procedure of the netlist is written with be written: those of the netlist
itself, the weights of its outputs, and the numbers of locations of its memories? -/
structure HasShortNumerals [Machine] (n : Netlist) (d : Dialect) : Prop where
  short : n.IsShort
  weights : d = .python → ∀ k < n.outputs.length, Numeral.isTooLong (power 2 k) = false
  depths : ∀ i ∈ n.instances, ∀ shape, MemoryShape.ofInstance i = .ok shape →
    Numeral.isTooLong shape.depth = false

variable {d : Dialect} {name done : Text}

/-- A requirement that is reported is not met. -/
theorem Reports.not_meets [Machine] {r : Requirement} (h : n.Reports d name done r e) :
    ¬n.Meets d name done r := by
  intro hmeets
  cases r with
  | wires =>
    rcases h with ⟨i, hi, ⟨before, w, after, hsplit, -, hw⟩, -⟩ |
      ⟨-, before, o, after, hsplit, -, ho⟩
    · exact hw.not_hasWire (hmeets.1 i hi w (by simp [hsplit]))
    · exact ho.not_hasWire (hmeets.2 o (by simp [hsplit]))
  | instances =>
    obtain ⟨i, hi, hfault, -⟩ := h
    obtain ⟨c, hc⟩ := hmeets i hi
    cases hc.symm.trans hfault
  | acyclic => exact hmeets h.1
  | exitFlag =>
    obtain ⟨w, hw⟩ := hmeets
    exact h.1 w hw
  | circuitName => exact Dialect.NameFault.not_allows h hmeets
  | inputNames =>
    obtain ⟨i, hi, ⟨input, hinput, hfault⟩, -⟩ := h
    exact hfault.not_allows (hmeets i hi input hinput)
  | outputCount =>
    have := hmeets h.1
    have := h.2.1
    omega

/-! ### Judging one requirement after another -/

/-- Does a computation judge requirements in order: if it succeeds they are all met, and if it fails
it reports the first that is not? -/
structure Judges [Machine] (n : Netlist) (d : Dialect) (name done : Text) {α : Type}
    (rs : List Requirement) (x : Except Error α) : Prop where
  meets : ∀ a, x = .ok a → ∀ r ∈ rs, n.Meets d name done r
  reports : ∀ e, x = .error e → n.ReportsFirst d name done rs e

private theorem Judges.single [Machine] {α : Type} {x : Except Error α} {r : Requirement}
    (hok : ∀ a, x = .ok a → n.Meets d name done r)
    (herror : ∀ e, x = .error e → n.Reports d name done r e) : n.Judges d name done [r] x where
  meets a ha := by simpa using hok a ha
  reports e he := ⟨[], r, [], rfl, by simp, herror e he⟩

/-- What judges some requirements, and then some more, judges them all. -/
theorem Judges.bind [Machine] {α β : Type} {x : Except Error α} {f : α → Except Error β}
    {rs later : List Requirement} (hx : n.Judges d name done rs x)
    (hf : ∀ a, x = .ok a → n.Judges d name done later (f a)) :
    n.Judges d name done (rs ++ later) (x >>= f) where
  meets b hb := by
    obtain ⟨a, ha, hb⟩ := bind_eq_ok.1 hb
    intro r hr
    rcases List.mem_append.1 hr with hr | hr
    · exact hx.meets a ha r hr
    · exact (hf a ha).meets b hb r hr
  reports e he := by
    rcases bind_eq_error.1 he with he | ⟨a, ha, he⟩
    · obtain ⟨before, r, after, hsplit, hbefore, hr⟩ := hx.reports e he
      exact ⟨before, r, after ++ later, by simp [hsplit], hbefore, hr⟩
    · obtain ⟨before, r, after, hsplit, hbefore, hr⟩ := (hf a ha).reports e he
      refine ⟨rs ++ before, r, after, by simp [hsplit], fun b hb => ?_, hr⟩
      rcases List.mem_append.1 hb with hb | hb
      · exact hx.meets a ha b hb
      · exact hbefore b hb

private theorem judges_check [Machine] (hshort : n.IsShort) :
    n.Judges d name done [.wires] n.check := by
  refine .single (fun _ hok => (check_eq_ok.1 hok).2) fun e he => ?_
  unfold check at he
  rcases bind_eq_error.1 he with he | ⟨⟨⟩, hinputs, he⟩
  · obtain ⟨before, i, after, hsplit, hbefore, hi⟩ := forM_eq_error.1 he
    have hfault := checkInputs_eq_error (hshort.instances i (by simp [hsplit])).id hi
    refine .inl (leastFault_of_split hsplit (fun j hj other hother => ?_) hfault)
    obtain ⟨first, w, rest, hin, -, hw⟩ := hother
    exact hw.not_hasWire ((checkInputs_eq_ok.1 (hbefore j hj)).2 w (by simp [hin]))
  · obtain ⟨before, o, after, hsplit, hbefore, ho⟩ := forM_eq_error.1 he
    refine .inr ⟨fun i hi => (checkInputs_eq_ok.1 (forM_eq_ok.1 hinputs i hi)).2, ?_⟩
    exact ⟨before, o, after, hsplit, fun b hb => (checkWire_eq_ok.1 (hbefore b hb)).2,
      wireFault_of_checkWire (by simp [Site.numerals]) ho⟩

private theorem judges_instances [Machine] :
    n.Judges d name done [.instances] (n.instances.mapM Component.ofInstance) := by
  refine .single (fun components hcs i hi => ?_) fun e he => ?_
  · obtain ⟨c, -, hc⟩ := exists_result hcs hi
    exact ⟨c, hc⟩
  · obtain ⟨before, i, after, hsplit, hbefore, hi⟩ := mapM_eq_error he
    have hnone : ∀ j ∈ before, ∀ other, Component.ofInstance j ≠ .error other := by
      intro j hj other hfault
      obtain ⟨c, hc⟩ := hbefore j hj
      cases hc.symm.trans hfault
    exact leastFault_of_split hsplit hnone hi

/-- The order of checked components judges the cycles of their instances. -/
theorem judges_ofComponents [Machine] {components : List Component}
    (hcs : n.instances.mapM Component.ofInstance = .ok components) :
    n.Judges d name done [.acyclic] (Schedule.ofComponents components) := by
  have hcycle : (∃ ids, Schedule.ofComponents components = .error (.cycle ids)) ↔
      ∃ i, Relation.TransGen n.Reads i i := by
    rw [Schedule.exists_ofComponents_cycle_iff,
      Traversal.exists_order_error_iff (Schedule.isGraph (nodup_numbers hcs)),
      exists_transGen_iff hcs]
  refine .single (fun s hs hreads => ?_) fun e he => ?_
  · obtain ⟨ids, hids⟩ := hcycle.2 hreads
    cases hids.symm.trans hs
  · obtain ⟨s, hs⟩ | ⟨ids, hids⟩ := Schedule.ofComponents_ok_or_cycle components
    · cases hs.symm.trans he
    · cases hids.symm.trans he
      exact ⟨hcycle.1 ⟨ids, hids⟩, ids, rfl⟩

private theorem judges_schedule [Machine] (hshort : n.IsShort) :
    n.Judges d name done [.wires, .instances, .acyclic] n.schedule :=
  (judges_check hshort).bind fun _ _ => judges_instances.bind fun _ => judges_ofComponents

/-- The search for the exit flag judges whether an output has its name. -/
theorem judges_output [Machine] : n.Judges d name done [.exitFlag] (n.output (.text done)) := by
  cases hfind : n.outputs.find? fun o => o.1 == done with
  | some o =>
    have hname : o.1 = done := beq_iff_eq.1 (List.find?_some hfind :)
    have houtput : n.output (.text done) = .ok o.2 := by simp [output, Value.text?, output?, hfind]
    refine .single (fun w _ => ⟨o.2, ?_⟩) fun e he => ?_
    · rw [← hname]
      exact List.mem_of_find?_eq_some hfind
    · cases houtput.symm.trans he
  | none =>
    have houtput : n.output (.text done) = .error (.missingOutput (.text done)) := by
      simp [output, Value.text?, output?, hfind]
    refine .single (fun w hw => ?_) fun e he => ⟨fun w hw => ?_, ?_⟩
    · cases houtput.symm.trans hw
    · exact List.find?_eq_none.1 hfind _ hw (beq_iff_eq.2 rfl)
    · cases houtput.symm.trans he
      rfl

private theorem judges_circuitName [Machine] : n.Judges d name done [.circuitName]
    (d.circuitName (.text name)) := by
  rcases Dialect.checkName_cases d name none with ⟨hok, hallows⟩ | ⟨fault, hfault, hname⟩
  · refine .single (fun _ _ => hallows) fun e he => ?_
    rw [Dialect.circuitName, hok] at he
    cases he
  · refine .single (fun title htitle => ?_) fun e he => ?_
    · rw [Dialect.circuitName, hfault] at htitle
      cases htitle
    · rw [Dialect.circuitName, hfault] at he
      cases he
      exact hname

/-- The check of the names of inputs judges them in ascending order of their instances. -/
theorem judges_inputNames [Machine] {s : Schedule}
    (hcs : n.instances.mapM Component.ofInstance = .ok s.components) :
    n.Judges d name done [.inputNames] (s.checkInputNames d) := by
  refine .single (fun _ hok i hi input hinput => ?_) fun e he => ?_
  · obtain ⟨c, hc, hic⟩ := exists_result hcs hi
    have hchecked := forM_eq_ok.1 hok c hc
    rw [Component.inputName?_eq hic, Option.mem_def.1 hinput] at hchecked
    exact Dialect.allows_of_checkName hchecked
  obtain ⟨before, c, after, hsplit, hbefore, hc⟩ := forM_eq_error.1 he
  -- the split of the components is one of the instances
  have hmap := mapM_eq_ok.1 hcs
  rw [hsplit, List.map_append, List.map_cons] at hmap
  obtain ⟨first, rest, hinstances, hfirst, hrest⟩ := List.map_eq_append_iff.1 hmap
  obtain ⟨i, later, rfl, hi, -⟩ := List.map_eq_cons_iff.1 hrest
  refine leastFault_of_split hinstances (fun j hj other hfault => ?_) ?_
  · obtain ⟨input, hinput, hfault⟩ := hfault
    have hmem := List.mem_map_of_mem (f := Component.ofInstance) hj
    obtain ⟨b, hb, hjb⟩ := List.mem_map.1 (hfirst ▸ hmem)
    have hchecked := hbefore b hb
    rw [Component.inputName?_eq hjb.symm, hinput] at hchecked
    exact hfault.not_allows (Dialect.allows_of_checkName hchecked)
  · rw [Component.inputName?_eq hi] at hc
    cases hinput : inputName? i with
    | none =>
      rw [hinput] at hc
      cases hc
    | some input =>
      rw [hinput, (Component.ofInstance_ok hi).1] at hc
      exact ⟨input, hinput, Dialect.nameFault_of_checkName hc⟩

end Netlist

/-! ### Numerals -/

namespace Netlist

variable {n : Netlist} {d : Dialect} {name done : Text}

/-- Where all numbers can be written, their check passes. -/
theorem HasShortNumerals.checkNumerals [Machine] {s : Schedule} (hn : n.HasShortNumerals d)
    (hcs : n.instances.mapM Component.ofInstance = .ok s.components)
    (hcount : d = .c → n.outputs.length ≤ outputLimit) :
    n.checkNumerals s = .ok () := by
  have hweights : n.outputs.length - 1 < Numeral.digitBits := by
    by_contra hlong
    cases d with
    | c =>
      have := hcount rfl
      have : outputLimit < Numeral.digitBits := by decide
      omega
    | python =>
      have hpositive : 0 < Numeral.digitBits := by decide
      have hshort := hn.weights rfl (n.outputs.length - 1) (by omega)
      cases hshort.symm.trans (Numeral.isTooLong_power_iff.2 (Nat.le_of_not_lt hlong))
  refine checkNumerals_eq_ok.2 ⟨hweights, hn.short, fun c hc shape ports hcell => ?_⟩
  obtain ⟨i, hi, hic⟩ := exists_element hcs hc
  have hfor := (Component.ofInstance_ok hic).2.2.1
  rw [hcell] at hfor
  have hdepth := hn.depths i hi shape hfor.of_memory.2.1
  by_contra hlong
  cases hdepth.symm.trans (Numeral.isTooLong_power_iff.2 (Nat.le_of_not_lt hlong))

/-- Compilation judges all requirements in their order, if no number is too long. -/
theorem judges_compile [Machine] (hshort : n.HasShortNumerals d) :
    n.Judges d name done Requirement.order (n.compile d (.text name) (.text done)) := by
  refine (judges_schedule hshort.short).bind fun s hs => ?_
  have hcs := (schedule_ok hs).2.1
  refine judges_output.bind fun exit _ => judges_circuitName.bind fun title _ => ?_
  refine (judges_inputNames hcs).bind fun _ _ => ?_
  dsimp only
  split
  · next hlimit =>
    exact .single (fun p hp => by cases hp) fun e he => by
      cases he
      exact ⟨hlimit.1, hlimit.2, rfl⟩
  · next hlimit =>
    have hcount : d = .c → n.outputs.length ≤ outputLimit := fun hd =>
      Nat.le_of_not_lt fun hlt => hlimit ⟨hd, hlt⟩
    rw [hshort.checkNumerals hcs hcount]
    exact .single (fun _ _ => hcount) fun e he => by cases he

/-- Compilation succeeds exactly if every requirement is met, and otherwise fails with the error of
the first that is not, as long as its numbers can be written. -/
theorem source_outcome [Machine] (n : Netlist) (d : Dialect) (name done : Text)
    (hshort : n.HasShortNumerals d) :
    ((∃ text, n.source d (.text name) (.text done) = .ok text) ↔
        ∀ r ∈ Requirement.order, n.Meets d name done r) ∧
      ∀ e, n.source d (.text name) (.text done) = .error e →
        n.ReportsFirst d name done Requirement.order e := by
  have hjudges : n.Judges d name done Requirement.order (n.compile d (.text name) (.text done)) :=
    judges_compile hshort
  unfold source
  cases hcompile : n.compile d (.text name) (.text done) with
  | ok p =>
    refine ⟨iff_of_true ⟨_, rfl⟩ (hjudges.meets p hcompile), fun e he => ?_⟩
    cases he
  | error fault =>
    have hfirst := hjudges.reports fault hcompile
    refine ⟨iff_of_false ?_ fun hmeets => ?_, fun e he => ?_⟩
    · rintro ⟨text, htext⟩
      cases htext
    · obtain ⟨before, r, after, hsplit, -, hr⟩ := hfirst
      exact hr.not_meets (hmeets r (by simp [hsplit]))
    · cases he
      exact hfirst

/-- An inverter that reads itself, and an input with the name of a type. -/
def knot : Netlist :=
  withFlag
    [⟨.number 0, "inv", [], [⟨.number 0, .number 0⟩], .number 1⟩,
      ⟨.number 3, "name", [("name", "int")], [], .number 1⟩]
    ⟨.number 0, .number 0⟩ (by decide)

open Desktop in
/-- Of a cycle, a missing exit flag and two bad names it is the cycle that is reported. -/
theorem knot_reports_cycle :
    knot.HasShortNumerals .c ∧
      knot.source .c (.text "1st") (.text "stop") = .error (.cycle [.number 0]) ∧
      knot.ReportsFirst .c "1st" "stop" Requirement.order (.cycle [.number 0]) := by
  have hshort : knot.HasShortNumerals .c := by
    have hshort : ∀ {k : Nat}, k < 10 → (Index.number k).IsShort := Index.isShort_number
    constructor
    · constructor
      · intro i hi
        simp only [knot, instances_withFlag, List.mem_cons, List.not_mem_nil, or_false] at hi
        rcases hi with rfl | rfl
        · refine ⟨hshort (by decide), hshort (by decide), fun w hw => ?_⟩
          rw [List.mem_singleton.1 hw]
          exact ⟨hshort (by decide), hshort (by decide)⟩
        · exact ⟨hshort (by decide), hshort (by decide), fun w hw => (List.not_mem_nil hw).elim⟩
      · intro o ho
        rw [List.mem_singleton.1 ho]
        exact ⟨hshort (by decide), hshort (by decide)⟩
    · simp
    · intro i hi shape hshape
      simp only [knot, instances_withFlag, List.mem_cons, List.not_mem_nil, or_false] at hi
      rcases hi with rfl | rfl
      · cases hshape
      · cases hshape
  have hschedule : knot.schedule = .error (.cycle [.number 0]) := by cbv
  have hsource : knot.source .c (.text "1st") (.text "stop") = .error (.cycle [.number 0]) := by
    rw [source, compile, hschedule]
    rfl
  exact ⟨hshort, hsource, (source_outcome knot .c "1st" "stop" hshort).2 _ hsource⟩

end Netlist

end Latchwork
