import Latchwork.Procedure.Source
import Latchwork.Proofs.Synchronous

/-!
# Clock inputs

The first input of a register is its clock. All registers advance at once, so the wire of a clock is
looked at only where all wires are checked. Two netlists that differ in clocks alone, and whose
wires pass that check, have the same components: a clock that closes a loop, comes from a later
instance or is an output of a memory changes neither the schedule nor the source text, and a fault
of the one netlist is reported of the other in the same words.
-/

namespace Latchwork

/-- Two instances that are equal, or registers that differ in nothing but the wire of the clock. -/
inductive Instance.EqualUpToClock : Instance → Instance → Prop where
  | refl (i : Instance) : EqualUpToClock i i
  | clock {i : Instance} {clock : Wire} {rest : List Wire} (hregister : i.isRegister = true)
    (hinputs : i.inputs = clock :: rest) (other : Wire) :
    EqualUpToClock i { i with inputs := other :: rest }

/-- Two netlists with the same outputs whose instances differ in nothing but the wires of clocks. -/
structure Netlist.EqualUpToClocks (n m : Netlist) : Prop where
  instances : List.Forall₂ Instance.EqualUpToClock n.instances m.instances
  outputs : n.outputs = m.outputs

/-! ### Checks of registers -/

private theorem Instance.exists_primitive {i : Instance} (h : i.isRegister = true) :
    ∃ kind, i.primitive = .ok kind ∧ kind.isRegister = true := by
  unfold isRegister isOf at h
  split at h
  · next kind hkind => exact ⟨kind, hkind, h⟩
  · cases h

private theorem Primitive.isMemory_of_isRegister {kind : Primitive} (h : kind.isRegister = true) :
    kind.isMemory = false := by
  cases kind with
  | delay => rfl
  | delayEn => rfl
  | _ => cases h

namespace Cell

variable {i : Instance} {kind : Primitive} {rest : List Wire}

private theorem ofInstance_eq [Machine] (hkind : i.primitive = .ok kind)
    (hmemory : kind.isMemory = false) :
    ofInstance i =
      if i.inputs.length ≠ kind.arity?.getD 0 then
        .error (.inputsNeeded i.id kind (kind.arity?.getD 0) i.inputs.length)
      else checkOutputs i kind 1 >>= fun _ => build i kind i.inputs := by
  unfold ofInstance
  rw [hkind]
  change (if kind.isMemory = true then _ else _) = _
  rw [if_neg (by simp [hmemory])]
  rfl

private theorem build_clock (hkind : kind.isRegister = true) (inputs : List Wire)
    (clock other : Wire) :
    build { i with inputs := inputs } kind (other :: rest) = build i kind (clock :: rest) := by
  cases kind with
  | delay => rcases rest with _ | ⟨data, _ | ⟨extra, more⟩⟩ <;> rfl
  | delayEn => rcases rest with _ | ⟨enable, _ | ⟨data, _ | ⟨extra, more⟩⟩⟩ <;> rfl
  | _ => cases hkind

private theorem ofInstance_clock [Machine] (hkind : i.primitive = .ok kind)
    (hregister : kind.isRegister = true)
    {clock : Wire} (hinputs : i.inputs = clock :: rest) (other : Wire) :
    ofInstance { i with inputs := other :: rest } = ofInstance i := by
  have hmemory := Primitive.isMemory_of_isRegister hregister
  have hother : Instance.primitive { i with inputs := other :: rest } = .ok kind := hkind
  rw [ofInstance_eq hother hmemory, ofInstance_eq hkind hmemory, hinputs]
  dsimp only
  rw [build_clock hregister (other :: rest) clock other]
  rfl

end Cell

private theorem Instance.EqualUpToClock.ofInstance_eq [Machine] {i j : Instance}
    (h : i.EqualUpToClock j) :
    Component.ofInstance i = Component.ofInstance j := by
  cases h with
  | refl => rfl
  | clock hregister hinputs other =>
    obtain ⟨kind, hkind, hregister⟩ := exists_primitive hregister
    unfold Component.ofInstance
    rw [Cell.ofInstance_clock hkind hregister hinputs other]
    rfl

private theorem Component.mapM_ofInstance_eq [Machine] {instances others : List Instance}
    (h : List.Forall₂ Instance.EqualUpToClock instances others) :
    instances.mapM ofInstance = others.mapM ofInstance := by
  induction h with
  | nil => rfl
  | cons hij _ ih => rw [List.mapM_cons, List.mapM_cons, hij.ofInstance_eq, ih]

/-! ### Netlists that differ in clocks -/

namespace Netlist

namespace EqualUpToClocks

variable {n m : Netlist}

private theorem schedule_eq [Machine] (h : n.EqualUpToClocks m) (hn : n.check = .ok ())
    (hm : m.check = .ok ()) :
    n.schedule = m.schedule := by
  rw [schedule, schedule, hn, hm, Component.mapM_ofInstance_eq h.instances]

private theorem isShort_iff (h : n.EqualUpToClocks m) (hn : n.check = .ok ())
    (hm : m.check = .ok ()) :
    n.IsShort ↔ m.IsShort := by
  have hequal : n.instances.map (fun i => (i.id, i.outputCount)) =
      m.instances.map fun i => (i.id, i.outputCount) := by
    refine List.forall₂_eq_eq_eq ▸ List.forall₂_map_left_iff.2 (List.forall₂_map_right_iff.2 ?_)
    refine h.instances.imp fun i j hij => ?_
    cases hij <;> rfl
  rw [isShort_iff_of_check hn, isShort_iff_of_check hm]
  have hall := congrArg (fun places => ∀ place ∈ places, place.1.IsShort ∧ place.2.IsShort) hequal
  simpa using hall

private theorem checkNumerals_eq (h : n.EqualUpToClocks m) (hn : n.check = .ok ())
    (hm : m.check = .ok ()) :
    n.checkNumerals = m.checkNumerals := by
  funext s
  have hnumbers : (Numeral.written n.numerals () : Except Error Unit) =
      Numeral.written m.numerals () :=
    Numeral.written_congr (by
      rw [← Netlist.isShort_iff, ← Netlist.isShort_iff]
      exact h.isShort_iff hn hm)
  rw [checkNumerals, checkNumerals, h.outputs, hnumbers]

private theorem compile_eq [Machine] (h : n.EqualUpToClocks m) (hn : n.check = .ok ())
    (hm : m.check = .ok ())
    (d : Dialect) (name done : Value) : n.compile d name done = m.compile d name done := by
  have hexit : n.output? = m.output? := by
    funext flag
    rw [output?, output?, h.outputs]
  rw [compile, compile, h.schedule_eq hn hm, output, output, hexit, h.outputs,
    h.checkNumerals_eq hn hm]

end EqualUpToClocks

/-- Two netlists that differ in the clocks of some registers only, and both of which have all their
wires, are compiled alike in either dialect: to the same source text or with the same error. -/
theorem source_eq_of_equalUpToClocks [Machine] (n m : Netlist) (h : n.EqualUpToClocks m)
    (hn : n.check = .ok ()) (hm : m.check = .ok ()) (d : Dialect) (name done : Value) :
    n.source d name done = m.source d name done := by
  rw [source, source, h.compile_eq hn hm]

/-- A register with the given clock that is enabled in every cycle and inverts itself. -/
def clockedBy (clock : Wire) : Netlist :=
  withFlag
    [⟨.number 0, "high", [], [], .number 1⟩,
      ⟨.number 1, "delayEn", [("init", "0")],
        [clock, ⟨.number 0, .number 0⟩, ⟨.number 2, .number 0⟩], .number 1⟩,
      ⟨.number 2, "inv", [], [⟨.number 1, .number 0⟩], .number 1⟩]
    ⟨.number 1, .number 0⟩ (by simp)

open Desktop in
/-- Whether the register is clocked by the constant or, in a loop, by the inverter that follows it,
the source text is the same. -/
theorem clockedBy_source_eq :
    (clockedBy ⟨.number 0, .number 0⟩).EqualUpToClocks (clockedBy ⟨.number 2, .number 0⟩) ∧
      (clockedBy ⟨.number 0, .number 0⟩).check = .ok () ∧
      (clockedBy ⟨.number 2, .number 0⟩).check = .ok () ∧
      ∀ d, ∃ text,
        (clockedBy ⟨.number 0, .number 0⟩).source d (.text "top") (.text "done") = .ok text ∧
        (clockedBy ⟨.number 2, .number 0⟩).source d (.text "top") (.text "done") = .ok text := by
  have hequal : (clockedBy ⟨.number 0, .number 0⟩).EqualUpToClocks
      (clockedBy ⟨.number 2, .number 0⟩) :=
    ⟨.cons (.refl _) (.cons (.clock rfl rfl _) (.cons (.refl _) .nil)), rfl⟩
  have hschedule : (clockedBy ⟨.number 0, .number 0⟩).schedule = .ok
      ⟨[⟨.number 0, .high, .constant true⟩,
          ⟨.number 1, .delayEn,
            .register false (some ⟨.number 0, .number 0⟩) ⟨.number 2, .number 0⟩⟩,
          ⟨.number 2, .inv, .inverter ⟨.number 1, .number 0⟩⟩],
        [⟨.number 0, .high, .constant true⟩,
          ⟨.number 2, .inv, .inverter ⟨.number 1, .number 0⟩⟩]⟩ := by
    cbv
  refine ⟨hequal, rfl, rfl, fun d => ?_⟩
  obtain ⟨text, htext⟩ : ∃ text,
      (clockedBy ⟨.number 0, .number 0⟩).source d (.text "top") (.text "done") = .ok text := by
    cases d <;> exact ⟨_, by rw [source, compile, hschedule]; rfl⟩
  refine ⟨text, htext, ?_⟩
  rw [← source_eq_of_equalUpToClocks _ _ hequal rfl rfl d, htext]

end Netlist

end Latchwork
