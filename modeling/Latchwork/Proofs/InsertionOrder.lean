import Latchwork.Plan.Prepare
import Latchwork.Proofs.Assembly
import Latchwork.Proofs.TableOrder

/-!
# Order of insertion

Instances with pairwise distinct ids can be added in any order. The table of the netlist shows the
order, but what is derived from the netlist does not: every reader goes through the instances by
ascending id, or looks one up by its id, and both forget the order of the table.
-/

namespace Latchwork

namespace Netlist

/-! ### Readers of a netlist -/

namespace SameAs

variable {m n : Netlist}

private theorem size_eq (h : m.SameAs n) : m.size = n.size := (iff_perm.1 h).1.length_eq

private theorem inputs_eq (h : m.SameAs n) : m.inputs = n.inputs := by
  rw [inputs, inputs, h.instances]

private theorem toValue_eq (h : m.SameAs n) : m.toValue = n.toValue := by
  rw [toValue, toValue, h.instances, h.outputs]

private theorem numerals_eq (h : m.SameAs n) : m.numerals = n.numerals := by
  rw [numerals, numerals, h.instances, h.outputs]

private theorem written_eq (h : m.SameAs n) : m.written = n.written := by
  rw [written, written, h.numerals_eq, text, text, h.instances, h.outputs]

private theorem dump_eq (h : m.SameAs n) : m.dump = n.dump := by
  rw [dump, dump, h.numerals_eq, toText, toText, h.toValue_eq]

private theorem output_eq (h : m.SameAs n) (done : Value) : m.output done = n.output done := by
  have houtput : m.output? = n.output? := by
    funext name
    rw [output?, output?, h.outputs]
  rw [output, output, houtput]

private theorem checkWire_eq (h : m.SameAs n) : m.checkWire = n.checkWire := by
  funext site w
  rw [checkWire, checkWire, h.find?_eq]

private theorem check_eq (h : m.SameAs n) : m.check = n.check := by
  have hinputs : m.checkInputs = n.checkInputs := by
    funext i
    rw [checkInputs, checkInputs, h.checkWire_eq]
  rw [check, check, h.instances, h.outputs, hinputs, h.checkWire_eq]

variable [Machine]

private theorem schedule_eq (h : m.SameAs n) : m.schedule = n.schedule := by
  rw [schedule, schedule, h.check_eq, h.instances]

private theorem source_eq (h : m.SameAs n) (d : Dialect) (name done : Value) :
    m.source d name done = n.source d name done := by
  have hnumerals : m.checkNumerals = n.checkNumerals := by
    funext s
    rw [checkNumerals, checkNumerals, h.outputs, h.numerals_eq]
  rw [source, source, compile, compile, h.schedule_eq, h.output_eq, h.outputs, hnumerals]

private theorem initFiles_eq (h : m.SameAs n) : m.initFiles = n.initFiles := by
  rw [initFiles, initFiles, h.instances]

private theorem altsyncramText_eq (h : m.SameAs n) : m.altsyncramText = n.altsyncramText := by
  rw [altsyncramText, altsyncramText, altsyncrams, altsyncrams, h.instances]

private theorem prepare_eq (h : m.SameAs n) (name : Value) (s : Settings) (env : Environment) :
    m.prepare name s env = n.prepare name s env := by
  have hvendor : m.vendorFiles = n.vendorFiles := by
    funext base
    rw [vendorFiles, vendorFiles, h.altsyncramText_eq]
  have hplan : m.plan = n.plan := by
    funext name done vendor python
    simp only [plan, h.source_eq, h.initFiles_eq, hvendor]
  rw [prepare, prepare, h.size_eq, hplan]

end SameAs

/-- Two netlists of which nothing that is derived differs: the same values, or the same errors. -/
structure SameOutcomes [Machine] (n n' : Netlist) : Prop where
  toValue : n.toValue = n'.toValue
  written : n.written = n'.written
  dump : n.dump = n'.dump
  inputs : n.inputs = n'.inputs
  check : n.check = n'.check
  schedule : n.schedule = n'.schedule
  source : ∀ d name done, n.source d name done = n'.source d name done
  initFiles : n.initFiles = n'.initFiles
  altsyncramText : n.altsyncramText = n'.altsyncramText
  prepare : ∀ name s env, n.prepare name s env = n'.prepare name s env

private theorem SameAs.sameOutcomes [Machine] {m n : Netlist} (h : m.SameAs n) :
    m.SameOutcomes n where
  toValue := h.toValue_eq
  written := h.written_eq
  dump := h.dump_eq
  inputs := h.inputs_eq
  check := h.check_eq
  schedule := h.schedule_eq
  source := h.source_eq
  initFiles := h.initFiles_eq
  altsyncramText := h.altsyncramText_eq
  prepare := h.prepare_eq

/-- What naming an output does to the table of outputs depends on that table alone. -/
theorem map_outputs_nameOutput {m n : Netlist} (h : m.outputs = n.outputs) (name wire : Value) :
    (m.nameOutput name wire).map outputs = (n.nameOutput name wire).map outputs := by
  cases name with
  | text s =>
    unfold nameOutput
    by_cases hi : Text.isIdentifier s = true
    · by_cases hn : s ∈ n.outputs.map Prod.fst
      · simp only [hi, hn, h, dif_pos]
      · have hm : s ∉ m.outputs.map Prod.fst := h.symm ▸ hn
        simp only [hi, hn, hm, dif_pos, dif_neg, not_false_eq_true]
        cases Wire.ofValue wire with
        | error e => rfl
        | ok w => exact congrArg (fun os => Except.ok (os ++ [(s, w)])) h
    · simp only [hi]
      rfl
  | _ => rfl

end Netlist

namespace Builder

/-! ### Additions -/

/-- Arguments that an instance is made from. -/
structure Addition where
  id : Value
  data : InstanceData
  made : Instance
  make_eq : Instance.make id data = .ok made

/-- The call that adds the instance. -/
def Addition.call (a : Addition) : Call := .insert a.id a.data

private theorem netlist_take_call {b : Builder} {a : Addition}
    (h : b.netlist.hasId a.made.id.value = false) :
    (b.take a.call).1.netlist = b.netlist.insert a.made h := by
  change (b.insert a.id a.data).1.netlist = _
  rw [Netlist.insert_of_make a.make_eq h]

private theorem after_append (b : Builder) (calls later : List Call) :
    b.after (calls ++ later) = (b.after calls).after later :=
  List.foldl_append

/-- Additions with pairwise distinct ids to a new netlist all take place, and the table shows their
order. -/
theorem netlist_after_additions {items : List Addition}
    (hids : (items.map fun a => a.made.id.value).Nodup) :
    ((ofNetlist .empty).after (items.map Addition.call)).netlist.table =
        items.map Addition.made ∧
      ((ofNetlist .empty).after (items.map Addition.call)).netlist.outputs = [] := by
  unfold after
  rw [List.foldl_map]
  apply Outcome.foldl_induct (P := fun before (b : Builder) =>
    b.netlist.table = before.map Addition.made ∧ b.netlist.outputs = [])
  · exact ⟨rfl, rfl⟩
  · rintro before a later b hsplit ⟨htable, houtputs⟩
    have hfree : b.netlist.hasId a.made.id.value = false := by
      rw [hsplit, List.map_append, List.map_cons, List.nodup_append] at hids
      simp only [Netlist.hasId, htable, List.any_eq_false, beq_iff_eq]
      intro i hi hid
      obtain ⟨c, hc, rfl⟩ := List.mem_map.1 hi
      exact hids.2.2 _ (List.mem_map_of_mem hc) _ (.head _) hid
    rw [netlist_take_call hfree, Netlist.table_insert, htable, List.map_append]
    exact ⟨rfl, houtputs⟩

/-- The calls that name a table of outputs. -/
def outputCalls (outputs : List (Value × Value)) : List Call :=
  outputs.map fun o => .nameOutput o.1 o.2

private theorem table_after_outputCalls (b : Builder) (outputs : List (Value × Value)) :
    (b.after (outputCalls outputs)).netlist.table = b.netlist.table := by
  unfold after outputCalls
  rw [List.foldl_map]
  refine Outcome.foldl_induct (P := fun _ (c : Builder) => c.netlist.table = b.netlist.table)
    rfl ?_
  intro _ o _ c _ hc
  rw [← hc]
  change (c.nameOutput o.1 o.2).1.netlist.table = _
  unfold nameOutput
  split
  · next netlist hnamed => exact Netlist.table_nameOutput hnamed
  · rfl

/-- What naming outputs does to their table depends on that table alone. -/
theorem outputs_after_outputCalls {b c : Builder} (h : b.netlist.outputs = c.netlist.outputs)
    (outputs : List (Value × Value)) :
    (b.after (outputCalls outputs)).netlist.outputs =
      (c.after (outputCalls outputs)).netlist.outputs := by
  induction outputs generalizing b c with
  | nil => exact h
  | cons o outputs ih =>
    refine ih (b := (b.nameOutput o.1 o.2).1) (c := (c.nameOutput o.1 o.2).1) ?_
    have hnamed := Netlist.map_outputs_nameOutput h o.1 o.2
    unfold nameOutput
    cases hb : b.netlist.nameOutput o.1 o.2 <;> cases hc : c.netlist.nameOutput o.1 o.2 <;>
      rw [hb, hc] at hnamed
    · exact h
    · cases hnamed
    · cases hnamed
    · exact Except.ok.inj hnamed

/-- The netlist with instances added one by one and a table of outputs named. -/
def assembled (items : List Addition) (outputs : List (Value × Value)) : Netlist :=
  ((ofNetlist .empty).after (items.map Addition.call ++ outputCalls outputs)).netlist

private theorem table_assembled {items : List Addition} (outputs : List (Value × Value))
    (hids : (items.map fun a => a.made.id.value).Nodup) :
    (assembled items outputs).table = items.map Addition.made := by
  rw [assembled, after_append, table_after_outputCalls, (netlist_after_additions hids).1]

/-- Instances with pairwise distinct ids, added in any order, make netlists whose tables show that
order and which have the same outcomes nevertheless. -/
theorem assembled_perm [Machine] (items items' : List Addition) (outputs : List (Value × Value))
    (hids : (items.map fun a => a.made.id.value).Nodup) (hperm : items.Perm items') :
    (assembled items outputs).table = items.map Addition.made ∧
      (assembled items' outputs).table = items'.map Addition.made ∧
      (assembled items outputs).SameOutcomes (assembled items' outputs) := by
  have hids' : (items'.map fun a => a.made.id.value).Nodup := (hperm.map _).nodup_iff.1 hids
  refine ⟨table_assembled outputs hids, table_assembled outputs hids', ?_⟩
  refine Netlist.SameAs.sameOutcomes (Netlist.SameAs.iff_perm.2 ⟨?_, ?_⟩)
  · rw [table_assembled outputs hids, table_assembled outputs hids']
    exact hperm.map _
  · rw [assembled, assembled, after_append, after_append]
    apply outputs_after_outputCalls
    rw [(netlist_after_additions hids).2, (netlist_after_additions hids').2]

/-- A constant. -/
def constantFive : Addition where
  id := .int 5
  data := { kind := .text "high" }
  made := ⟨.number 5, "high", [], [], .number 1⟩
  make_eq := rfl

/-- An inverter of the constant, with a parameter that is given as a number. -/
def inverterTwo : Addition where
  id := .int 2
  data :=
    { kind := .text "inv"
      params := .object [("a", .int 1)]
      inputs := .list [.list [.int 5, .int 0]] }
  made := ⟨.number 2, "inv", [("a", "1")], [⟨.number 5, .number 0⟩], .number 1⟩
  make_eq := by cbv

/-- An output that is named, and a second one of the same name that is refused. -/
def doneTwice : List (Value × Value) :=
  [(.text "done", .list [.int 2, .int 0]), (.text "done", .list [.int 5, .int 0])]

open Desktop in
theorem inverterTwo_constantFive :
    ([constantFive, inverterTwo].map fun a => a.made.id.value).Nodup ∧
      [constantFive, inverterTwo].Perm [inverterTwo, constantFive] ∧
      (assembled [constantFive, inverterTwo] doneTwice).table =
        [constantFive.made, inverterTwo.made] ∧
      (assembled [inverterTwo, constantFive] doneTwice).table =
        [inverterTwo.made, constantFive.made] ∧
      (assembled [constantFive, inverterTwo] doneTwice).SameOutcomes
        (assembled [inverterTwo, constantFive] doneTwice) := by
  have hids : ([constantFive, inverterTwo].map fun a => a.made.id.value).Nodup := by decide
  have hperm : [constantFive, inverterTwo].Perm [inverterTwo, constantFive] := .swap _ _ _
  exact ⟨hids, hperm, assembled_perm _ _ doneTwice hids hperm⟩

end Builder

end Latchwork
