import Latchwork.Proofs.Starting

/-!
# Running on unbounded integers

The engine that calculates with integers of any size is lawful for words of every width and for all
arguments. So the procedure that a netlist is compiled to agrees with the synchronous semantics of
the netlist over any number of turns, on all inputs. The only thing that can go wrong is the start:
a procedure that is not ready does not reach its loop, where its netlist would go on.
-/

namespace Latchwork

open Outcome

/-- The engine that calculates with integers of any size. Names stay bound when a turn ends. -/
def Engine.unbounded : Engine where
  Fault := Error
  run := Statement.run
  flag s m := (s.get m).map Content.isTrue
  result p s := p.result.eval s
  leave _ t := t

namespace Procedure

/-- A turn on unbounded integers is a turn of the procedure. -/
theorem turn_eq (p : Procedure) (s : Store) : Engine.unbounded.turn p s = p.turn s := by
  unfold Engine.turn turn
  refine congrArg _ (funext fun t => ?_)
  change (Except.map _ _ >>= _ : Except Error Progress) = _
  cases t.get p.exitFlag <;> rfl

/-- Turns on unbounded integers are turns of the procedure. -/
theorem turns_eq (p : Procedure) (s : Store) (k : Nat) :
    Engine.unbounded.turns p s k = p.turns k (.running s) := by
  induction k with
  | zero => rfl
  | succ k ih =>
    rw [Engine.turns, ih, turns_add]
    refine congrArg (Except.bind _) (funext fun here => ?_)
    have hadvance : Engine.unbounded.advance p here = p.advance here := by
      cases here with
      | returned result => rfl
      | running t => exact p.turn_eq t
    rw [hadvance]
    change _ = p.advance here >>= fun next => .ok next
    cases p.advance here <;> rfl

end Procedure

/-! ### Values of expressions -/

namespace Expr

variable {s : Store} {bits : Nat → Bool}

private theorem eval_binary {op : Operator} {a b : Expr} {x y : Int}
    (ha : a.eval s = .ok (.number x)) (hb : b.eval s = .ok (.number y)) :
    (Expr.binary op a b).eval s = .ok (.number (op.onNumbers x y)) := by
  rw [eval, ha, hb]
  exact Operator.apply_number op x y

/-- The value of joined terms that are the bits of a word in their places. -/
theorem eval_joined {op : Operator} (hop : op = .or ∨ op = .add) {terms : List Expr}
    (h : ∀ (k : Nat) (e : Expr), terms[k]? = some e →
      e.eval s = .ok (.ofWord ((bits k).toNat * 2 ^ k))) :
    (joined op terms).eval s = .ok (.ofWord (weigh terms.length bits)) := by
  induction terms using List.reverseRecOn with
  | nil =>
    rw [List.length_nil, weigh_zero]
    rfl
  | append_singleton terms e ih =>
    have hlast := h terms.length e (by simp)
    have hfirst := ih fun k e' he' => h k e' (by
      rw [List.getElem?_append_left (List.getElem?_eq_some_iff.1 he').1, he'])
    rw [joined_concat, List.length_append, List.length_singleton]
    split
    · next hnil =>
      rw [hnil] at hlast ⊢
      rw [hlast, weigh_succ, List.length_nil, weigh_zero, Nat.zero_add]
    · rw [eval_binary hfirst hlast, Operator.onNumbers_weigh hop]
      rfl

variable {bus : List Wire}

private theorem eval_joined_cells {op : Operator} (hop : op = .or ∨ op = .add)
    {place : Nat → Expr → Expr} {cells : List Expr}
    (hplace : ∀ (k : Nat) (e : Expr) (b : Bool), e.eval s = .ok (.ofBit b) →
      (place k e).eval s = .ok (.ofWord (b.toNat * 2 ^ k)))
    (h : ∀ (k : Nat) (e : Expr), cells[k]? = some e → e.eval s = .ok (.ofBit (bits k))) :
    (joined op (cells.mapIdx place)).eval s = .ok (.ofWord (weigh cells.length bits)) := by
  have hterms : ∀ (k : Nat) (e : Expr), (cells.mapIdx place)[k]? = some e →
      e.eval s = .ok (.ofWord ((bits k).toNat * 2 ^ k)) := by
    intro k e he
    rw [List.getElem?_mapIdx, Option.map_eq_some_iff] at he
    obtain ⟨cell, hcell, rfl⟩ := he
    exact hplace k cell (bits k) (h k cell hcell)
  have heval := eval_joined hop hterms
  rwa [List.length_mapIdx] at heval

private theorem eval_wires (h : ∀ k w, bus[k]? = some w → s.get (.wire w) = .ok (.ofBit (bits k)))
    {k : Nat} {e : Expr} (he : (bus.map wire)[k]? = some e) :
    e.eval s = .ok (.ofBit (bits k)) := by
  rw [List.getElem?_map, Option.map_eq_some_iff] at he
  obtain ⟨w, hw, rfl⟩ := he
  exact h k w hw

private theorem eval_word (h : ∀ k w, bus[k]? = some w → s.get (.wire w) = .ok (.ofBit (bits k))) :
    (word .python (bus.map wire)).eval s = .ok (.ofWord (weigh bus.length bits)) := by
  rw [← List.length_map wire]
  refine eval_joined_cells (.inl rfl) (fun k e b he => ?_) fun _ _ => eval_wires h
  by_cases hk : k = 0
  · rw [hk, shifted, if_pos rfl, he, Nat.pow_zero, Nat.mul_one]
    rfl
  · have hshifted : shifted .python k e = .shiftLeft e k := by simp [shifted, hk]
    rw [hshifted, eval, he]
    change Except.ok (Content.number ((b.toNat : Int) * (2 ^ k : Nat))) = _
    rw [Content.ofWord, Int.natCast_mul]

/-- The value of packed cells. -/
theorem eval_packed_cells {cells : List Expr}
    (h : ∀ (k : Nat) (e : Expr), cells[k]? = some e → e.eval s = .ok (.ofBit (bits k))) :
    (packed .python cells).eval s = .ok (.ofWord (weigh cells.length bits)) := by
  refine eval_joined_cells (.inr rfl) (fun k e b he => ?_) h
  by_cases hk : k = 0
  · rw [hk, if_pos rfl, he, Nat.pow_zero, Nat.mul_one]
    rfl
  · have hscaled : scaled .python (power 2 k) e = .binary .times (.literal (2 ^ k)) e := by
      simp [scaled]
    rw [if_neg hk, hscaled, eval_binary rfl he, Nat.mul_comm]
    exact congrArg (fun z => Except.ok (Content.number z)) (Int.natCast_mul _ _).symm

private theorem eval_packed
    (h : ∀ k w, bus[k]? = some w → s.get (.wire w) = .ok (.ofBit (bits k))) :
    (packed .python (bus.map wire)).eval s = .ok (.ofWord (weigh bus.length bits)) := by
  simpa using eval_packed_cells fun _ _ => eval_wires h

private theorem eval_bit {m : Name} {value index : Nat} (h : s.get m = .ok (.ofWord value)) :
    (bit (.name m) index).eval s = .ok (.ofBit (value.testBit index)) := by
  have hword : (if index = 0 then Expr.name m else .shiftRight (.name m) index).eval s =
      .ok (.number ((value >>> index : Nat) : Int)) := by
    split
    · next hzero =>
      rw [eval, h, hzero]
      rfl
    · rw [eval, eval, h]
      rfl
  rw [bit, eval_binary hword rfl]
  exact congrArg (fun z => Except.ok (Content.number z)) (Operator.onNumbers_and_one value index)

end Expr

/-! ### Laws -/

private theorem placeIn_of_lt {size k : Nat} (h : k < size) : placeIn size (k : Nat) = .ok k := by
  change (if k < size then _ else _) = _
  rw [if_pos h]

/-- A combinational component settles on unbounded integers. -/
theorem settle_unbounded {s : Store} {c : Component} {input : Text → Int} {v : Valuation} {b : Bool}
    (hreads : ∀ w ∈ c.cell.reads, s.get (.wire w) = .ok (.ofBit (v.at w)))
    (hinput : ∀ name, c.cell = .input name → s.get (.given name) = .ok (.number (input name)))
    (hb : c.cell.drives? input v = some b) :
    c.settle.foldlM Statement.run s = .ok (s.set (.wire (c.wire 0)) (.ofBit b)) := by
  have hwire : ∀ w ∈ c.cell.reads, (Expr.wire w).eval s = .ok (.number ((v.at w).toNat : Nat)) :=
    hreads
  have hvalue : ∃ e note, c.settle = [.bind (.wire (c.wire 0)) e note] ∧
      e.eval s = .ok (.ofBit b) := by
    refine Component.exists_settle hb (P := fun e b => e.eval s = .ok (.ofBit b)) ?_ ?_ ?_ ?_ ?_
    · exact fun _ => rfl
    · intro a ha
      rw [Expr.eval_binary rfl (hwire a ha)]
      cases v.at a <;> rfl
    · intro op a ha a' ha'
      rw [Expr.eval_binary (hwire a ha) (hwire a' ha'), Gate.onNumbers_operator]
      rfl
    · intro select hselect whenSet hset whenClear hclear
      rw [Expr.eval, hwire select hselect]
      cases v.at select
      · exact hwire whenClear hclear
      · exact hwire whenSet hset
    · intro name hcell
      have hgiven : (Expr.name (.given name)).eval s = .ok (.number (input name)) :=
        hinput name hcell
      rw [Expr.eval_binary rfl hgiven]
      exact congrArg (fun z => Except.ok (Content.number z)) (Operator.onNumbers_one_and _)
  obtain ⟨e, note, hsettle, he⟩ := hvalue
  rw [hsettle, foldlM_singleton, Statement.run, he]
  rfl

/-- Unbounded integers hold all words and accept all arguments. -/
theorem lawful_unbounded : Engine.unbounded.Lawful .python (fun _ => True) fun _ => True where
  settle hreads hinput hb := settle_unbounded hreads (fun name hname => (hinput name hname).1) hb
  follow {s id data b} hdata := by
    change (Except.map _ (s.get _) : Except Error Store) = _
    rw [hdata]
    rfl
  choose {s id enable data old e b o} henable hdata hold := by
    change (Except.map _ (s.get _ >>= _) : Except Error Store) = _
    rw [henable]
    cases e with
    | false =>
      change (Except.map _ (s.get _) : Except Error Store) = _
      rw [hold]
      rfl
    | true =>
      change (Except.map _ (s.get _) : Except Error Store) = _
      rw [hdata]
      rfl
  word {s dest bus bit} _ hbits := by
    change (Except.map _ (Expr.eval s _) : Except Error Store) = _
    rw [Expr.eval_word hbits]
    rfl
  write {s id k port e word address size cells} henable hdata haddress hstorage hlt := by
    change (s.get _ >>= _ : Except Error Store) = _
    rw [henable]
    cases e with
    | false => rfl
    | true =>
      change (s.get _ >>= _ : Except Error Store) = _
      rw [hdata]
      change (s.get _ >>= _ : Except Error Store) = _
      rw [hstorage]
      change (s.get _ >>= _ : Except Error Store) = _
      rw [haddress]
      change (placeIn size (address : Nat) >>= _) >>= _ = _
      rw [placeIn_of_lt hlt]
      rfl
  read {s id k word address size cells width} haddress hstorage hlt hword _ _ := by
    change (Except.map _ (s.get _ >>= _) : Except Error Store) = _
    rw [hstorage]
    change (Except.map _ (s.get _ >>= _) : Except Error Store) = _
    rw [haddress]
    change (Except.map _ (placeIn size (address : Nat) >>= _) : Except Error Store) = _
    rw [placeIn_of_lt hlt, ← hword]
    rfl
  commit {s w id b} hnext := by
    change (Except.map _ (s.get _) : Except Error Store) = _
    rw [hnext]
    rfl
  pick {s w id k word width index} hread _ _ _ := by
    change (Except.map _ (Expr.eval s _) : Except Error Store) = _
    rw [Expr.eval_bit hread]
    rfl
  flag {s w b} hflag := by
    change (s.get _).map _ = _
    rw [hflag]
    cases b <;> rfl
  result {s p bus bit} hresult _ _ hbits := by
    change p.result.eval s = _
    rw [hresult]
    exact Expr.eval_packed hbits
  leave _ _ ht := ht

/-! ### Whole runs -/

namespace Netlist

/-- From the opening store on, a compiled procedure is after any number of turns where its netlist
is after as many cycles. -/
theorem Compiled.turns_opening [Machine] {n : Netlist} {exit : Wire} {s : Schedule}
    (h : n.Compiled .python exit s) (title : Text) {input : Text → Int} {k : Nat} {stage : Stage}
    (hstage : n.Reaches input exit k stage) :
    ∃ here, (s.procedure .python title n.outputs exit).turns k
        (.running ((s.procedure .python title n.outputs exit).opening input)) = .ok here ∧
      here.Agrees n s.inputs input stage := by
  have hturns := turns_agree lawful_unbounded h (fun _ _ _ _ => ⟨trivial, trivial⟩)
    (fun _ _ => trivial) title (shows_opening h title input) hstage
  rwa [Procedure.turns_eq] at hturns

/-- The procedure of a netlist can be started, and follows the netlist from there. After any number
of turns it is where the netlist is after as many cycles: both have returned the same number, or the
store shows the state. And what the statements that settle the wires leave in the store is what
solves the equations of the gates in that cycle. -/
def IsFollowed [Machine] (n : Netlist) (name done : Value) (input : Text → Int) (exit : Wire) :
    Prop :=
  ∃ p s, n.executable name done = .ok p ∧
    p.start (p.inputs.map fun x => .number (input x)) = .ok s ∧
    (∀ k stage, n.Reaches input exit k stage →
      ∃ here, p.turns k (.running s) = .ok here ∧ here.Agrees n p.inputs input stage) ∧
    ∀ k σ t, n.Reaches input exit k (.running σ) → p.turns k (.running s) = .ok (.running t) →
      ∃ u, p.settle.foldlM Statement.run t = .ok u ∧
        ∀ v, n.Settles input σ v → u.ShowsWires n v

/-- When a compiled procedure agrees with the synchronous semantics of its netlist, on all integers
as inputs and over any number of turns. The netlist is in exactly one place after so many cycles,
and in each cycle exactly one valuation of the wires solves the equations of the gates. The
procedure follows it exactly if it is ready: no expression is nested too deeply, neither the circuit
nor an input has the name that nothing can be bound to, and every table can be held. A procedure
that is not ready is not translated, or fails before its first turn. -/
theorem compile_simulates [Machine] (n : Netlist) (hn : n.IsLoaded) (name done : Value)
    (p : Procedure) (hp : n.compile .python name done = .ok p) (input : Text → Int) :
    ∃ exit, n.output done = .ok exit ∧
      (∀ k, ∃! stage, n.Reaches input exit k stage) ∧
      (∀ σ, ∃! v, n.Settles input σ v) ∧
      (n.IsFollowed name done input exit ↔ p.IsReady) ∧
      (¬p.IsReady →
        (∃ e, n.executable name done = .error e ∧
          (e = .nesting ∨ e = .forbiddenName Procedure.constantName)) ∨
        n.executable name done = .ok p ∧
          ∃ e, p.start (p.inputs.map fun x => .number (input x)) = .error e ∧
            (e = .numberTooLarge ∨ e = .outOfMemory)) := by
  obtain ⟨s, exit, title, hexit, h, hprocedure⟩ := compile_ok hp hn.isNumbered
  refine ⟨exit, hexit, fun k => ?_, fun σ => ?_, ⟨?_, fun hready => ?_⟩,
    fun hready => fails_of_not_isReady hp hready input⟩
  · obtain ⟨stage, hstage⟩ := exists_reaches h.schedule input exit k
    exact ⟨stage, hstage, fun other hother => hother.unique h.schedule hstage⟩
  · obtain ⟨v, hv⟩ := exists_settles h.schedule input σ
    exact ⟨v, hv, fun w hw => hw.unique h.schedule hv⟩
  · rintro ⟨q, t, hq, ht, -⟩
    exact (isReady_of_start hp hq ht).2.2
  · obtain ⟨hexecutable, hstart⟩ := start_of_isReady hp hready input
    subst hprocedure
    refine ⟨_, _, hexecutable, hstart, fun k stage => h.turns_opening title, ?_⟩
    intro k σ t hσ ht
    obtain ⟨here, hhere, hagrees⟩ := h.turns_opening title hσ
    obtain rfl : here = .running t := Except.ok.inj (hhere.symm.trans ht)
    obtain ⟨v, hv⟩ := exists_settles h.schedule input σ
    obtain ⟨u, hrun, hsettled⟩ := settle_block lawful_unbounded h hv hagrees fun _ _ => trivial
    refine ⟨u, hrun, fun w hw => ?_⟩
    rw [hw.unique h.schedule hv]
    exact hsettled.showsWires h hv hagrees

open Desktop in
/-- A register that inverts itself is compiled to a procedure that follows it. -/
theorem toggle_simulated :
    toggle.IsLoaded ∧ ∃ p, toggle.compile .python (.text "top") (.text "done") = .ok p ∧
      p.IsReady ∧
      toggle.IsFollowed (.text "top") (.text "done") (fun _ => 0) ⟨.number 1, .number 0⟩ := by
  have hloaded : toggle.IsLoaded := .inl ⟨toggle.toValue, by cbv⟩
  have hschedule : toggle.schedule = .ok
      ⟨[⟨.number 0, .inv, .inverter ⟨.number 1, .number 0⟩⟩,
          ⟨.number 1, .delay, .register false none ⟨.number 0, .number 0⟩⟩],
        [⟨.number 0, .inv, .inverter ⟨.number 1, .number 0⟩⟩]⟩ := by
    cbv
  obtain ⟨p, hcompile, hrunnable, hstorages⟩ :
      ∃ p, toggle.compile .python (.text "top") (.text "done") = .ok p ∧
        p.checkRunnable = .ok () ∧ p.checkStorages = .ok () :=
    ⟨_, by rw [compile, hschedule]; rfl, rfl, rfl⟩
  have hready : p.IsReady := Procedure.isReady_iff.mpr ⟨hrunnable, hstorages⟩
  obtain ⟨exit, hexit, -, -, hfollowed, -⟩ :=
    compile_simulates toggle hloaded _ _ p hcompile fun _ => 0
  have hsame : toggle.output (.text "done") = .ok ⟨.number 1, .number 0⟩ := rfl
  obtain rfl := Except.ok.inj (hexit.symm.trans hsame)
  exact ⟨hloaded, p, hcompile, hready, hfollowed.mpr hready⟩

/-- A netlist whose only output is the exit flag returns one when the flag is set. -/
theorem Reaches.leave_flag [Machine] {n : Netlist} {input : Text → Int} {exit : Wire} {label : Text}
    (houtputs : n.outputs = [(label, exit)]) {k : Nat} {σ : State} {v : Valuation}
    (h : n.Reaches input exit k (.running σ)) (hv : n.Settles input σ v)
    (hexit : v.at exit = true) : n.Reaches input exit (k + 1) (.returned 1) := by
  have hpacked : n.packed v = 1 := by
    unfold packed
    rw [houtputs]
    change weigh 1 _ = 1
    rw [weigh_succ, weigh_zero]
    change 0 + (v.at exit).toNat * 2 ^ 0 = 1
    rw [hexit]
    rfl
  exact hpacked ▸ h.leave hv hexit

/-- A memory with more locations than can be counted, beside an exit flag that is always set. -/
def tallMemory : Netlist :=
  withFlag
    [⟨.number 0, "high", [], [], .number 1⟩,
      ⟨.number 1, "ram", [("dwidth", "1"), ("awidth", "64")],
        List.replicate 66 ⟨.number 0, .number 0⟩, .number 1⟩]
    ⟨.number 0, .number 0⟩ (by decide)

open Desktop in
set_option maxRecDepth 2048 in
/-- The netlist returns after one cycle, but its procedure does not reach its loop, and so does not
follow it. -/
theorem tallMemory_not_started :
    tallMemory.IsLoaded ∧
      tallMemory.Reaches (fun _ => 0) ⟨.number 0, .number 0⟩ 1 (.returned 1) ∧
      (∃ p, tallMemory.executable (.text "top") (.text "done") = .ok p ∧
        p.inputs = [] ∧ p.start [] = .error .numberTooLarge) ∧
      ¬tallMemory.IsFollowed (.text "top") (.text "done") (fun _ => 0) ⟨.number 0, .number 0⟩ := by
  have hschedule : tallMemory.schedule = .ok
      ⟨[⟨.number 0, .high, .constant true⟩,
          ⟨.number 1, .ram, .memory ⟨1, 64, [], false, by decide, by decide, by decide⟩
            [⟨⟨.number 0, .number 0⟩, [⟨.number 0, .number 0⟩],
              List.replicate 64 ⟨.number 0, .number 0⟩, [⟨.number 1, .number 0⟩]⟩]⟩],
        [⟨.number 0, .high, .constant true⟩]⟩ := by
    cbv
  obtain ⟨p, hcompile, hrunnable, hinputs, hstart⟩ :
      ∃ p, tallMemory.compile .python (.text "top") (.text "done") = .ok p ∧
        p.checkRunnable = .ok () ∧ p.inputs = [] ∧ p.start [] = .error .numberTooLarge :=
    ⟨_, by rw [compile, hschedule]; rfl, by rfl, rfl, rfl⟩
  have hexecutable : tallMemory.executable (.text "top") (.text "done") = .ok p := by
    rw [executable_eq hcompile, hrunnable]
    rfl
  refine ⟨.inl ⟨tallMemory.toValue, by cbv⟩, ?_, ⟨p, hexecutable, hinputs, hstart⟩, ?_⟩
  rotate_left
  · rintro ⟨q, t, hq, ht, -⟩
    obtain rfl := Except.ok.inj (hexecutable.symm.trans hq)
    rw [hinputs, List.map_nil, hstart] at ht
    cases ht
  obtain ⟨v, hv⟩ := exists_settles hschedule (fun _ => 0) tallMemory.initial
  have hflag : v.at ⟨.number 0, .number 0⟩ = true :=
    (Option.some.inj (hv.gates _ (.head _) rfl)).symm
  exact .leave_flag rfl .start hv hflag

end Netlist

end Latchwork
