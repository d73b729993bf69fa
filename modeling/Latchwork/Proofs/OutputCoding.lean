import Latchwork.Proofs.Formula
import Latchwork.Proofs.Parameters
import Latchwork.Proofs.WireNames

/-!
# Outputs as one number

The outputs of a procedure leave it as one number, which is a weighted sum of its bits; they are
taken out of it again by shifts, and a simulation on the command line packs them once more for its
last line. The three agree: the bits that are taken out are those that went in, and the number that
is printed is the one that was returned.
-/

namespace Latchwork

open Outcome

/-! ### Bits of a number -/

private theorem testBit_weigh {width : Nat} (bit : Nat → Bool) {k : Nat} (hk : k < width) :
    (weigh width bit).testBit k = bit k := by
  induction width with
  | zero => omega
  | succ width ih =>
    rw [weigh_succ, Nat.add_comm, Nat.mul_comm, Nat.testBit_two_pow_mul_add _ (weigh_lt width bit)]
    split
    · next hlt => exact ih hlt
    · obtain rfl : k = width := by omega
      cases bit k <;> simp

private theorem shiftRight_mod_two (value index : Nat) :
    (((value : Int) >>> index) % 2).toNat = (value.testBit index).toNat := by
  have hshift : ((value : Int) >>> index) = ((value >>> index : Nat) : Int) := rfl
  rw [hshift, Nat.toNat_testBit, Nat.shiftRight_eq_div_pow]
  omega

variable {names : List Text}

private theorem eraseDups_of_nodup (h : names.Nodup) : names.eraseDups = names := by
  induction names with
  | nil => rfl
  | cons name rest ih =>
    obtain ⟨hname, hrest⟩ := List.nodup_cons.1 h
    have hkept : rest.filter (fun other => !other == name) = rest := by
      refine List.filter_eq_self.2 fun other hother => ?_
      simpa using ne_of_mem_of_not_mem hother hname
    rw [List.eraseDups_cons, hkept, ih hrest]

/-- Under different names, each is given its own bit. -/
theorem unpackOutputs_eq (h : names.Nodup) (value : Nat) :
    unpackOutputs value names = names.mapIdx fun k name => (name, (value.testBit k).toNat) := by
  simp only [unpackOutputs, shiftRight_mod_two, eraseDups_of_nodup h]
  apply List.ext_getElem?
  intro k
  rw [List.getElem?_map, List.getElem?_mapIdx]
  cases hk : names[k]? with
  | none => rfl
  | some name =>
    generalize hentries : (names.mapIdx fun k name => (name, (value.testBit k).toNat)) = entries
    have hmem : (name, (value.testBit k).toNat) ∈ entries.reverse := by
      rw [List.mem_reverse, ← hentries, List.mem_iff_getElem?]
      exact ⟨k, by simp [hk]⟩
    obtain ⟨g, hg⟩ : ∃ g, entries.reverse.find? (fun b => b.1 == name) = some g :=
      Option.isSome_iff_exists.1 (List.find?_isSome.2 ⟨_, hmem, by simp⟩)
    -- the entry that is found has the same name, so it stands in the same place
    have hfound := List.mem_of_find?_eq_some hg
    rw [List.mem_reverse, ← hentries, List.mem_iff_getElem?] at hfound
    obtain ⟨j, hj⟩ := hfound
    rw [List.getElem?_mapIdx, Option.map_eq_some_iff] at hj
    obtain ⟨other, hother, rfl⟩ := hj
    obtain rfl : other = name := by simpa using List.find?_some hg
    obtain rfl : j = k := (List.getElem?_inj (List.getElem?_eq_some_iff.1 hother).1 h).1
      (hother.trans hk.symm)
    simp [hg]

namespace CommandLine

/-- The bits of a number are packed into the number. -/
theorem packBits_testBit {α : Type} (xs : List α) {value : Nat} (h : value < 2 ^ xs.length) :
    packBits (xs.mapIdx fun k _ => (value.testBit k).toNat) = value := by
  induction xs generalizing value with
  | nil =>
    have hzero : value = 0 := by simpa using h
    rw [hzero]
    rfl
  | cons x xs ih =>
    rw [List.length_cons, Nat.pow_succ] at h
    have hrest : packBits (xs.mapIdx fun k _ => ((value / 2).testBit k).toNat) = value / 2 :=
      ih (by omega)
    simp only [Nat.testBit_div_two] at hrest
    rw [List.mapIdx_cons]
    change _ + 2 * packBits _ = value
    rw [hrest, Nat.toNat_testBit]
    omega

private theorem packBits_unpackOutputs (h : names.Nodup) {value : Nat}
    (hvalue : value < 2 ^ names.length) :
    packBits ((unpackOutputs value names).map (·.2)) = value := by
  have hbits : (names.mapIdx fun k name => (name, (value.testBit k).toNat)).map (·.2) =
      names.mapIdx fun k _ => (value.testBit k).toNat := by
    apply List.ext_getElem?
    intro k
    simp [Function.comp_def]
  rw [unpackOutputs_eq h, hbits, packBits_testBit names hvalue]

/-! ### Simulations -/

/-- The line of an output. -/
def outputLine (name : Text) (bit : Nat) : Text := name ++ "=" ++ Numeral.decimal bit ++ "\n"

/-- What is printed for a number: its bits under their names, one a line, and the number. -/
def resultText (names : List Text) (value : Nat) : Text :=
  Text.join (names.mapIdx fun k name => outputLine name (value.testBit k).toNat) ++
    Numeral.decimal value ++ "\n"

private theorem outputText_unpackOutputs (h : names.Nodup) {value : Nat}
    (hvalue : value < 2 ^ names.length) :
    outputText (unpackOutputs value names) = resultText names value := by
  have hlines : (unpackOutputs value names).map (fun b => outputLine b.1 b.2) =
      names.mapIdx fun k name => outputLine name (value.testBit k).toNat := by
    rw [unpackOutputs_eq h]
    apply List.ext_getElem?
    intro k
    simp [Function.comp_def]
  change Text.join ((unpackOutputs value names).map fun b => outputLine b.1 b.2) ++
    Numeral.decimal (packBits ((unpackOutputs value names).map (·.2))) ++ "\n" = _
  rw [packBits_unpackOutputs h hvalue, hlines, resultText]

private theorem conclusion_failed (tree : FileTree) (shown : Text) (e : Error) :
    (failed tree shown e).conclusion ≠ .exited 0 := by
  unfold failed
  split
  · exact fun h => nomatch h
  · exact fun h => nomatch h

private theorem simulate_eq_completed [Machine] {i : Invocation} {n : Netlist}
    {inputs : List (Text × Bool)} {output : Bytes} (hinputs : assignments 0 i.inputs = .ok inputs)
    (hnone : inputComplaint n ((givenInputs inputs).map (·.1)) = none)
    (houtput : simulateOn n (givenInputs inputs) i.done = .ok output) (tree : FileTree) :
    simulate i n tree = completed tree .empty output := by
  simp only [simulate, hinputs, hnone, houtput]

/-- A simulation that ends well prints the number that the procedure returned. -/
theorem output_simulate [Machine] {i : Invocation} {n : Netlist} {tree : FileTree} (hn : n.IsLoaded)
    (h : (simulate i n tree).conclusion = .exited 0) :
    ∃ inputs p value, assignments 0 i.inputs = .ok inputs ∧
      n.executable defaultName i.done = .ok p ∧
      p.callNamed (givenInputs inputs) = .ok (.number (value : Nat)) ∧
      (resultText (n.outputs.map (·.1)) value).utf8 = .ok (simulate i n tree).output := by
  unfold simulate at h
  split at h
  · next e he => exact absurd h (conclusion_failed tree .empty e)
  next inputs hinputs =>
  dsimp only at h
  split at h
  · cases h
  next hnone =>
  split at h
  · next output houtput =>
    obtain ⟨bits, hbits, hwritten⟩ := bind_eq_ok.1 houtput
    obtain ⟨text, htext, hutf8⟩ := bind_eq_ok.1 hwritten
    obtain ⟨-, rfl⟩ := Numeral.written_eq_ok.1 htext
    obtain ⟨p, hp, hrest⟩ := bind_eq_ok.1 hbits
    obtain ⟨result, hresult, hrest⟩ := bind_eq_ok.1 hrest
    obtain ⟨z, hz, hpure⟩ := bind_eq_ok.1 hrest
    cases hpure
    obtain ⟨s, exit, title, -, hcompiled, rfl⟩ :=
      Netlist.compile_ok (Netlist.executable_eq_ok hp) hn.isNumbered
    obtain ⟨bit, -, hcall⟩ := hcompiled.exists_callNamed title hnone
    rcases hcompiled.run_cases title fun name => (bit name).toNat with
      ⟨k, value, hreturned, hrun⟩ | ⟨e, hrun, -⟩
    · obtain rfl := Except.ok.inj (hresult.symm.trans (hcall.trans hrun))
      obtain rfl : (value : Int) = z := Except.ok.inj hz
      have hvalue : value < 2 ^ (n.outputs.map (·.1)).length := by
        rw [List.length_map]
        exact hreturned.returned_lt
      refine ⟨inputs, _, value, hinputs, hp, hresult, ?_⟩
      rw [← outputText_unpackOutputs n.namesDistinct hvalue,
        simulate_eq_completed hinputs hnone houtput tree]
      exact hutf8
    · cases hresult.symm.trans (hcall.trans hrun)
  · next e he => exact absurd h (conclusion_failed tree .empty e)

/-- A command line that simulates a netlist which was loaded from a channel. -/
structure Session.Simulates (s : Session) (i : Invocation) (n : Netlist) : Prop where
  going : (Setup.ofArguments s.args s.tree).stop = none
  invocation : (Setup.ofArguments s.args s.tree).invocation = i
  action : i.action = some .simulate
  loaded : ∃ source, i.netlist = some source ∧
    (netlistText s (Setup.ofArguments s.args s.tree).tree source).bind Netlist.ofText = .ok n

private theorem Session.Simulates.run_eq [Machine] {s : Session} {i : Invocation} {n : Netlist}
    (h : s.Simulates i n) : run s = simulate i n (Setup.ofArguments s.args s.tree).tree := by
  obtain ⟨source, hsource, hloaded⟩ := h.loaded
  simp only [run, h.going, h.invocation, h.action, hsource, hloaded]

end CommandLine

/-- An expression of bits has a number from which the bits are taken out again. -/
theorem Expr.exists_eval_encoded (hnames : names.Nodup) {values : List Bool} {t : Store}
    (hlength : values.length = names.length)
    (hvalues : ∀ g ∈ names.zip values, t.get (.given g.1) = .ok (.ofBit g.2)) :
    ∃ value : Nat, (encoded names).eval t = .ok (.number value) ∧
      unpackOutputs value names = names.zip (values.map Bool.toNat) := by
  have hcells : ∀ (k : Nat) (e : Expr),
      (names.map fun name => Expr.name (.given name))[k]? = some e →
        e.eval t = .ok (.ofBit (values.getD k false)) := by
    intro k e he
    rw [List.getElem?_map, Option.map_eq_some_iff] at he
    obtain ⟨name, hname, rfl⟩ := he
    have hk : k < values.length := hlength.symm ▸ (List.getElem?_eq_some_iff.1 hname).1
    rw [List.getD_eq_getElem _ _ hk]
    exact hvalues (name, values[k]) (List.mem_of_getElem? (List.getElem?_zip_eq_some.2
      ⟨hname, List.getElem?_eq_getElem hk⟩))
  have heval := eval_packed_cells hcells
  rw [List.length_map] at heval
  refine ⟨_, heval, ?_⟩
  rw [unpackOutputs_eq hnames]
  apply List.ext_getElem
  · simp [hlength]
  · intro k hk _
    rw [List.length_mapIdx] at hk
    have hvalue : k < values.length := hlength.symm ▸ hk
    simp [testBit_weigh _ hk, hvalue]

private theorem exists_encodeOutputs_iff :
    (∃ text, encodeOutputs names = .ok text) ↔ names.length ≤ Numeral.digitBits := by
  have hpositive : 0 < Numeral.digitBits := by decide
  constructor
  · rintro ⟨text, htext⟩
    have := (Numeral.writtenPower_eq_ok.1 htext).1
    omega
  · intro h
    exact ⟨_, Numeral.writtenPower_eq_ok.2 ⟨by omega, rfl⟩⟩

namespace CommandLine

/-- Outputs are coded and decoded without loss. The expression that packs names is written exactly
if its last weight can be, and then its text spells it. Where names hold bits, it has a number from
which the bits are taken out again, each under its name and in order. A number with a bit for each
name is packed again from the bits that are taken out of it. So a simulation that ends well prints,
after its bits, the number that the procedure returned. -/
theorem outputs_coded [Machine] (names : List Text) (hnames : names.Nodup) :
    ((∃ text, encodeOutputs names = .ok text) ↔ names.length ≤ Numeral.digitBits) ∧
      (∀ text, encodeOutputs names = .ok text → (∀ name ∈ names, name.isIdentifier = true) →
        Expr.read? .python text = some (Expr.encoded names)) ∧
      (∀ (values : List Bool) (t : Store), values.length = names.length →
        (∀ g ∈ names.zip values, t.get (.given g.1) = .ok (.ofBit g.2)) →
        ∃ value : Nat, (Expr.encoded names).eval t = .ok (.number value) ∧
          unpackOutputs value names = names.zip (values.map Bool.toNat)) ∧
      (∀ value < 2 ^ names.length,
        packBits ((unpackOutputs (value : Nat) names).map (·.2)) = value) ∧
      ∀ (s : Session) (i : Invocation) (n : Netlist), s.Simulates i n →
        n.outputs.map (·.1) = names → (run s).conclusion = .exited 0 →
        ∃ inputs p value, assignments 0 i.inputs = .ok inputs ∧
          n.executable defaultName i.done = .ok p ∧
          p.callNamed (givenInputs inputs) = .ok (.number (value : Nat)) ∧
          (resultText names value).utf8 = .ok (run s).output := by
  refine ⟨exists_encodeOutputs_iff, fun text htext hidentifiers => ?_,
    fun values t => Expr.exists_eval_encoded hnames, fun value => packBits_unpackOutputs hnames,
    fun s i n hsimulates houtputs hexit => ?_⟩
  · obtain ⟨-, rfl⟩ := Numeral.writtenPower_eq_ok.1 htext
    have hgiven : ∀ m ∈ names.map Name.given, m.text.isIdentifier = true := by
      simpa [Name.text] using hidentifiers
    have hread := Expr.read?_packed (d := .python) hgiven
    rwa [List.map_map, List.map_map] at hread
  · obtain ⟨source, -, hloaded⟩ := hsimulates.loaded
    obtain ⟨text, -, hread⟩ := bind_eq_ok.1 hloaded
    rw [hsimulates.run_eq] at hexit ⊢
    rw [← houtputs]
    exact output_simulate (.inr ⟨text, hread⟩) hexit

/-- The names of the first wires, one more than an expression that packs them is written for. -/
def wireNames : List Text :=
  (List.range (Numeral.digitBits + 1)).map fun k => (Wire.mk (.number k) (.number 0)).name

/-- The names differ and could all be outputs, but the weight of the last one has too many digits.
-/
theorem wireNames_not_encoded :
    wireNames.Nodup ∧ (∀ name ∈ wireNames, name.isIdentifier = true) ∧
      encodeOutputs wireNames = .error .numeralTooLong := by
  refine ⟨?_, fun name hname => ?_, ?_⟩
  · refine List.nodup_range.map fun a b hab => ?_
    exact Index.number.inj (Wire.name_eq_iff.1 (Text.ofString_inj.1 hab)).1
  · obtain ⟨k, -, rfl⟩ := List.mem_map.1 hname
    exact Wire.isIdentifier_name _
  · have hlength : wireNames.length - 1 = Numeral.digitBits := by
      rw [wireNames, List.length_map, List.length_range, Nat.add_sub_cancel]
    rw [encodeOutputs, Numeral.writtenPower_eq, hlength]
    exact Numeral.written_eq_error.2
      ⟨⟨_, .head _, Numeral.isTooLong_power_iff.2 (Nat.le_refl _)⟩, rfl⟩

/-- A constant that is the exit flag. -/
def beacon : Netlist :=
  Netlist.withFlag [⟨.number 0, "high", [], [], .number 1⟩] ⟨.number 0, .number 0⟩ (by decide)

/-- A simulation of the netlist, whose text stands on the standard input. -/
def beaconSession : Session where
  args := ["simulate", "-"]
  env := []
  input := "\x7b\"instances\": [\x7b\"kind\": \"high\", \"id\": 0\x7d]," ++
    "\"outputs\": [[\"done\", [0, 0]]]\x7d"
  tree := .empty

/-- The invocation that the command line comes down to. -/
def beaconInvocation : Invocation := (Setup.ofArguments beaconSession.args .empty).invocation

private theorem simulates_beacon : beaconSession.Simulates beaconInvocation beacon :=
  ⟨by decide +kernel, rfl, by decide +kernel, .standard, by decide +kernel, by cbv⟩

/-- The procedure of the netlist. -/
def beaconProcedure : Procedure :=
  Schedule.procedure ⟨[⟨.number 0, .high, .constant true⟩], [⟨.number 0, .high, .constant true⟩]⟩
    .python "top" beacon.outputs ⟨.number 0, .number 0⟩

open Desktop in
private theorem executable_beacon {done : Value} (h : done.text? = some (Text.ofString "done")) :
    beacon.executable defaultName done = .ok beaconProcedure := by
  have hschedule : beacon.schedule = .ok ⟨[⟨.number 0, .high, .constant true⟩],
      [⟨.number 0, .high, .constant true⟩]⟩ := by
    cbv
  have houtput : beacon.output done = .ok ⟨.number 0, .number 0⟩ := by
    rw [Netlist.output, h]
    rfl
  rw [Netlist.executable, Netlist.compile, hschedule]
  change ((beacon.output done >>= _) >>= _) = _
  rw [houtput]
  rfl

open Desktop in
private theorem run_beacon : beaconProcedure.run [] = .ok (.number 1) := by
  let flag : Name := .wire ⟨.number 0, .number 0⟩
  have hflag : (Store.set ⟨"top", ∅⟩ flag (.number 1)).get flag = .ok (.number 1) :=
    Store.get_set_self ..
  have hturn : beaconProcedure.turn ⟨"top", ∅⟩ = .ok (.returned (.number 1)) := by
    change ((Store.set ⟨"top", ∅⟩ flag (.number 1)).get flag >>= _) = _
    rw [hflag]
    change ((Store.set ⟨"top", ∅⟩ flag (.number 1)).get flag >>= _) = _
    rw [hflag]
    rfl
  change beaconProcedure.bursts 1 0 (.running ⟨"top", ∅⟩) = _
  rw [Procedure.bursts, Procedure.burst, Procedure.advance, hturn]

open Desktop in
private theorem exited_beacon : (run beaconSession).conclusion = .exited 0 := by
  have hdone : beaconInvocation.done.text? = some (Text.ofString "done") := by decide +kernel
  have hinputs : beaconInvocation.inputs = [] := by decide +kernel
  have hsimulate : beacon.simulate [] beaconInvocation.done =
      .ok (unpackOutputs 1 beaconProcedure.outputs) := by
    rw [Netlist.simulate, executable_beacon hdone]
    change (beaconProcedure.run [] >>= _) = _
    rw [run_beacon]
    rfl
  obtain ⟨bytes, hbytes⟩ : ∃ bytes,
      (outputText (unpackOutputs 1 beaconProcedure.outputs)).utf8 = .ok bytes := ⟨_, by cbv⟩
  have houtput : simulateOn beacon (givenInputs []) beaconInvocation.done = .ok bytes := by
    change (beacon.simulate [] beaconInvocation.done >>= _) = _
    rw [hsimulate]
    exact hbytes
  rw [simulates_beacon.run_eq, simulate_eq_completed (by rw [hinputs]; rfl) (by cbv) houtput]
  rfl

open Desktop in
/-- A single output is coded, decoded and printed. -/
theorem beacon_outputs_coded :
    (∃ value : Nat,
      (Expr.encoded ["done"]).eval (Store.set ⟨"top", ∅⟩ (.given "done") (.ofBit true)) =
        .ok (.number value) ∧
      unpackOutputs value [Text.ofString "done"] = [(Text.ofString "done", 1)]) ∧
      packBits ((unpackOutputs 1 [Text.ofString "done"]).map (·.2)) = 1 ∧
      ∃ p value, beacon.executable defaultName beaconInvocation.done = .ok p ∧
        p.callNamed [] = .ok (.number (value : Nat)) ∧
        (resultText ["done"] value).utf8 = .ok (run beaconSession).output := by
  obtain ⟨-, -, hcoded, hpacked, hprinted⟩ := outputs_coded ["done"] (by decide)
  have hinputs : beaconInvocation.inputs = [] := by decide +kernel
  obtain ⟨inputs, p, value, hassigned, hp, hcall, houtput⟩ :=
    hprinted beaconSession beaconInvocation beacon simulates_beacon rfl exited_beacon
  rw [hinputs] at hassigned
  cases hassigned
  refine ⟨hcoded [true] _ rfl ?_, hpacked 1 (by decide), p, value, hp, hcall, houtput⟩
  intro g hg
  rw [List.mem_singleton.1 hg]
  exact Store.get_set_self ..

end CommandLine

end Latchwork
