import Latchwork.Proofs.Blocks

/-!
# Compiled procedures simulate their netlists

On a lawful engine, a compiled procedure starts with a store that shows the initial state of its
netlist, and every turn of its loop is one cycle. By induction the procedure is, after any number of
turns, where the run of the netlist is after as many cycles.
-/

namespace Latchwork

open Outcome

/-! ### The opening store -/

/-- What a declaration sets. -/
def Declaration.place (s : Store) : Declaration → Store
  | .cells names value => names.foldl (fun s m => s.set m (.ofBit value)) s
  | .storage name shape => s.set name (.table shape.depth (shape.init.map .ofWord))

/-- Gives an argument to an input. -/
def Store.give (input : Text → Int) (s : Store) (name : Text) : Store :=
  s.set (.given name) (.number (input name))

/-- The store with which a procedure starts its loop, if all its tables can be held. -/
def Procedure.opening (p : Procedure) (input : Text → Int) : Store :=
  p.declarations.foldl Declaration.place (p.inputs.foldl (Store.give input) ⟨p.name, ∅⟩)

/-- A register starts with its initial value. -/
theorem Instance.initialBit_register [Machine] {i : Instance} {c : Component}
    (hic : Component.ofInstance i = .ok c) {init : Bool} {enable : Option Wire} {data : Wire}
    (hcell : c.cell = .register init enable data) : i.initialBit = init := by
  obtain ⟨-, -, hfor, -⟩ := Component.ofInstance_ok hic
  rw [hcell] at hfor
  have hinit := hfor.of_register.2
  have hregister : i.isRegister = true := by rw [isRegister_eq hic, hcell]; rfl
  unfold Cell.registerInit at hinit
  obtain ⟨value, hvalue, hinit⟩ := bind_eq_ok.1 hinit
  rw [initialBit, hregister, hvalue, Bool.true_and]
  split at hinit
  · next hzero =>
    cases hinit
    rw [hzero]
    rfl
  · split at hinit
    · next hone =>
      cases hinit
      rw [hone]
      rfl
    · cases hinit

private theorem Instance.initialBit_memory [Machine] {i : Instance} {c : Component}
    (hic : Component.ofInstance i = .ok c) {shape : MemoryShape} {ports : List MemoryPort}
    (hcell : c.cell = .memory shape ports) : i.initialBit = false := by
  have hregister : i.isRegister = false := by rw [isRegister_eq hic, hcell]; rfl
  rw [initialBit, hregister, Bool.false_and]

private theorem Picked.cells {c : Component} {σ : State} {t : Store} (hid : c.id.IsNumber)
    {value : Bool} (hvalue : ∀ port, σ.bits c.id.value port = value) (count : Nat) :
    Picked c σ t count (((List.range count).map fun k => Name.wire (c.wire k)).foldl
      (fun s m => s.set m (.ofBit value)) t) := by
  induction count with
  | zero => exact ⟨by simp, fun _ _ _ => rfl⟩
  | succ count ih =>
    rw [List.range_succ, List.map_append, List.foldl_append]
    have hset := ih.set hid
    rw [hvalue] at hset
    exact hset

/-- The table of a memory starts with its contents. -/
theorem holdsTable_contents (s : Store) (m : Name) (shape : MemoryShape) :
    (s.set m (.table shape.depth (shape.init.map .ofWord))).HoldsTable m shape.contents := by
  refine ⟨_, by rw [Store.get_set_self, shape.length_contents], fun k => ?_⟩
  rw [List.getD_eq_getElem?_getD, List.getD_eq_getElem?_getD, MemoryShape.contents,
    List.getElem?_map]
  by_cases hk : k < shape.init.length
  · rw [List.getElem?_append_left hk, List.getElem?_eq_getElem hk]
    rfl
  · rw [List.getElem?_append_right (by omega), List.getElem?_eq_none (by omega),
      List.getElem?_replicate]
    split <;> rfl

section

variable {n : Netlist} {d : Dialect} {exit : Wire} {s : Schedule} {input : Text → Int}

/-- Names of inputs are proper. -/
theorem Netlist.Compiled.given_isProper [Machine] (h : n.Compiled d exit s) {name : Text}
    (hname : name ∈ s.inputs) : (Name.given name).IsProper := by
  obtain ⟨c, hc, hinput⟩ := List.mem_filterMap.1 (List.mem_eraseDups.1 hname)
  unfold Component.inputName? at hinput
  split at hinput
  · next hcell =>
    cases hinput
    exact h.names c hc name hcell
  · cases hinput

/-- The memory shape of an instance is that of its cell. -/
theorem Component.exists_memory [Machine] {i : Instance} {c : Component}
    (hic : Component.ofInstance i = .ok c) {shape : MemoryShape}
    (hshape : MemoryShape.ofInstance i = .ok shape) :
    ∃ ports, c.cell = .memory shape ports := by
  obtain ⟨-, hkind, hfor, -⟩ := Component.ofInstance_ok hic
  have hmemory : c.kind.isMemory = true := by
    obtain ⟨kind, hkind', hmemory, -⟩ := MemoryShape.ofInstance_ok hshape
    cases hkind.symm.trans hkind'
    exact hmemory
  rw [← hfor.isMemory_eq] at hmemory
  cases hcell : c.cell with
  | memory shape' ports =>
    rw [hcell] at hfor
    rw [hfor.of_memory.2.1] at hshape
    cases hshape
    exact ⟨ports, rfl⟩
  | _ =>
    rw [hcell] at hmemory
    cases hmemory

/-- The state of the first components is declared, and nothing else has changed. -/
structure Opened [Machine] (n : Netlist) (before : List Component) (start t : Store) : Prop where
  bits : ∀ c ∈ before, ∀ port < c.cell.outputCount,
    t.get (.wire (c.wire port)) = .ok (.ofBit (n.initial.bits c.id.value port))
  tables : ∀ c ∈ before, ∀ shape ports, c.cell = .memory shape ports →
    t.HoldsTable (.storage c.id) shape.contents
  frame : ∀ m : Name, m.IsProper →
    (∀ c ∈ before, (∀ port, m ≠ .wire (c.wire port)) ∧ m ≠ .storage c.id) → t.get m = start.get m

/-- One component declares its state. -/
theorem declare_component [Machine] (h : n.Compiled d exit s) {c : Component}
    (hc : c ∈ s.sequential) (t : Store) : Opened n [c] t (c.declare.foldl Declaration.place t) := by
  obtain ⟨hc, hseq⟩ := Netlist.Compiled.mem_sequential.1 hc
  obtain ⟨i, hi, hic⟩ := h.exists_instance hc
  have hcid : c.id = i.id := (Component.ofInstance_ok hic).1
  have hid := h.isNumber hc
  rw [Component.declare]
  cases hcell : c.cell with
  | register init enable data =>
    have hbits : ∀ port, n.initial.bits c.id.value port = init := fun port => by
      rw [hcid, Netlist.initial_bits hi, Instance.initialBit_register hic hcell]
    have hpicked := Picked.cells (t := t) hid hbits 1
    refine ⟨fun b hb port hport => ?_, by simp [hcell], fun m hm hother => ?_⟩
    · rw [List.mem_singleton.1 hb] at hport ⊢
      rw [hcell] at hport
      exact hpicked.shown port hport
    · exact hpicked.frame m hm (hother c (.head _)).1
  | memory shape ports =>
    have hbits : ∀ port, n.initial.bits c.id.value port = false := fun port => by
      rw [hcid, Netlist.initial_bits hi, Instance.initialBit_memory hic hcell]
    have hpicked := Picked.cells (t := t) hid hbits shape.outputCount
    have hstorage : (Name.storage c.id).IsProper := hid
    refine ⟨fun b hb port hport => ?_, fun b hb shape' ports' hcell' => ?_, fun m hm hother => ?_⟩
    · rw [List.mem_singleton.1 hb] at hport ⊢
      rw [hcell] at hport
      rw [← hpicked.shown port hport]
      exact Store.get_set_of_isProper _ (h.wire_isProper hc port) hstorage (by simp)
    · rw [List.mem_singleton.1 hb] at hcell' ⊢
      rw [hcell] at hcell'
      cases hcell'
      exact holdsTable_contents ..
    · obtain ⟨hwire, hne⟩ := hother c (.head _)
      rw [← hpicked.frame m hm hwire]
      exact Store.get_set_of_isProper _ hm hstorage hne
  | _ =>
    rw [hcell] at hseq
    cases hseq

/-- The declarations set the state of every component that holds state. -/
theorem declare_block [Machine] (h : n.Compiled d exit s) (start : Store) :
    Opened n s.sequential start
      ((s.sequential.flatMap Component.declare).foldl Declaration.place start) := by
  rw [List.foldl_flatMap]
  refine foldl_induct (P := fun before => Opened n before start)
    ⟨by simp, by simp, fun _ _ _ => rfl⟩ fun before c after t hsplit ht => ?_
  have hmem : ∀ b ∈ before ++ c :: after, b ∈ s.sequential := fun b hb => hsplit ▸ hb
  have hcomponent : ∀ b ∈ before ++ c :: after, b ∈ s.components := fun b hb =>
    (Netlist.Compiled.mem_sequential.1 (hmem b hb)).1
  have hc := hcomponent c (by simp)
  have hopened := declare_component h (hmem c (by simp)) t
  refine ⟨fun b hb port hport => ?_, fun b hb shape ports hcell => ?_, fun m hm hother => ?_⟩
  · by_cases hbc : b = c
    · exact hopened.bits b (by simp [hbc]) port hport
    · have hb : b ∈ before := by simpa [hbc] using hb
      have hbn := hcomponent b (List.mem_append_left _ hb)
      rw [hopened.frame _ (h.wire_isProper hbn port), ht.bits b hb port hport]
      intro c' hc'
      rw [List.mem_singleton.1 hc']
      refine ⟨fun k hname => ?_, by simp⟩
      exact hbc (h.eq_of_id_eq hbn hc (congrArg Wire.driver (Name.wire.inj hname)))
  · by_cases hbc : b = c
    · exact hopened.tables b (by simp [hbc]) shape ports hcell
    · have hb : b ∈ before := by simpa [hbc] using hb
      have hbn := hcomponent b (List.mem_append_left _ hb)
      refine (ht.tables b hb shape ports hcell).congr (hopened.frame _ (h.isNumber hbn) ?_)
      intro c' hc'
      rw [List.mem_singleton.1 hc']
      exact ⟨by simp, fun hname => hbc (h.eq_of_id_eq hbn hc (Name.storage.inj hname))⟩
  · rw [hopened.frame m hm fun b hb => hother b (by simp [List.mem_singleton.1 hb]),
      ht.frame m hm fun b hb => hother b (by simp [hb])]

private theorem get_given {names : List Text} {name : Text} (hname : name ∈ names) (start : Store) :
    (names.foldl (Store.give input) start).get (.given name) = .ok (.number (input name)) := by
  refine foldl_induct
    (P := fun before (t : Store) => ∀ name ∈ before,
      t.get (.given name) = .ok (.number (input name)))
    (by simp) (fun before x after t _ ht y hy => ?_) name hname
  by_cases hyx : y = x
  · rw [hyx, Store.give, Store.get_set_self]
  · rw [Store.give, Store.get_set_of_ne _ _ (by simpa [Name.text] using hyx)]
    exact ht y (by simpa [hyx] using hy)

/-- The opening store shows the initial state. -/
theorem shows_opening [Machine] (h : n.Compiled d exit s) (title : Text) (input : Text → Int) :
    ((s.procedure d title n.outputs exit).opening input).Shows n s.inputs input n.initial := by
  have hopened := declare_block h (s.inputs.foldl (Store.give input) ⟨title, ∅⟩)
  refine ⟨fun name hname => ?_, fun i hi hci port hport => ?_, fun i hi shape hshape => ?_⟩
  · have hgiven : (s.inputs.foldl (Store.give input) ⟨title, ∅⟩).get (.given name) =
        .ok (.number (input name)) := get_given hname _
    rw [← hgiven]
    exact hopened.frame (.given name) (h.given_isProper hname) (by simp)
  · obtain ⟨c, hc, hic⟩ := h.exists_component hi
    obtain ⟨hcid, -, -, hcount⟩ := Component.ofInstance_ok hic
    have hseq : c.cell.isSequential = true := by
      simpa [Instance.isCombinational_eq hic] using hci
    have hbit := hopened.bits c (Netlist.Compiled.mem_sequential.2 ⟨hc, hseq⟩) port (by omega)
    rw [Component.wire, hcid] at hbit
    exact hbit
  · obtain ⟨c, hc, hic⟩ := h.exists_component hi
    have hcid : c.id = i.id := (Component.ofInstance_ok hic).1
    obtain ⟨ports, hcell⟩ := Component.exists_memory hic hshape
    have hseq : c.cell.isSequential = true := by rw [hcell]; rfl
    rw [Netlist.initial_words hi hshape, ← hcid]
    exact hopened.tables c (Netlist.Compiled.mem_sequential.2 ⟨hc, hseq⟩) shape ports hcell

/-! ### Turns and cycles -/

variable {E : Engine} {fits : Nat → Prop} {accepts : Int → Prop} {σ : State} {v : Valuation}

private theorem Settled.shows [Machine] (h : n.Compiled d exit s) {start t : Store}
    (hstart : start.Shows n s.inputs input σ) (ht : Settled s.combinational v start t)
    (hv : n.Settles input σ v) : t.Shows n s.inputs input σ := by
  refine ⟨fun name hname => ?_, fun i hi hci port hport => ?_, fun i hi shape hshape => ?_⟩
  · rw [ht.frame _ (h.given_isProper hname) (by simp), hstart.inputs name hname]
  · rw [← hv.state i hi hci port hport]
    exact ht.showsWires h hv hstart (i.wire port) ⟨(h.numbered.instances i hi).1, rfl⟩
      ⟨i, hi, rfl, hport⟩
  · have hid : (Name.storage i.id).IsProper := (h.numbered.instances i hi).1
    exact (hstart.tables i hi shape hshape).congr (ht.frame _ hid (by simp))

/-- The three blocks together leave the state after the cycle. -/
theorem Committed.shows [Machine] (h : n.Compiled d exit s) {t u w : Store} {σ' : State}
    (ht : t.Shows n s.inputs input σ) (hu : Prepared s.sequential σ' t u)
    (hw : Committed s.sequential σ' u w) : w.Shows n s.inputs input σ' := by
  refine ⟨fun name hname => ?_, fun i hi hci port hport => ?_, fun i hi shape hshape => ?_⟩
  · have hproper := h.given_isProper hname
    rw [hw.frame _ hproper (by simp), hu.frame _ hproper (by simp [Name.holder?]),
      ht.inputs name hname]
  · obtain ⟨c, hc, hic⟩ := h.exists_component hi
    obtain ⟨hcid, -, -, hcount⟩ := Component.ofInstance_ok hic
    have hseq : c.cell.isSequential = true := by
      simpa [Instance.isCombinational_eq hic] using hci
    have hbit := hw.shown c (Netlist.Compiled.mem_sequential.2 ⟨hc, hseq⟩) port (by omega)
    rw [Component.wire, hcid] at hbit
    exact hbit
  · obtain ⟨c, hc, hic⟩ := h.exists_component hi
    have hcid : c.id = i.id := (Component.ofInstance_ok hic).1
    obtain ⟨ports, hcell⟩ := Component.exists_memory hic hshape
    have hseq : c.cell.isSequential = true := by rw [hcell]; rfl
    have hcomputed := hu.computed c (Netlist.Compiled.mem_sequential.2 ⟨hc, hseq⟩)
    rw [Component.Computed, hcell, hcid] at hcomputed
    have hid : (Name.storage i.id).IsProper := (h.numbered.instances i hi).1
    exact hcomputed.1.congr (hw.frame _ hid (by simp))

private theorem Store.Shows.leave [Machine] (hE : E.Lawful d fits accepts) {start t : Store}
    {names : List Text}
    {σ' : State} (hstart : start.Shows n names input σ) (ht : t.Shows n names input σ') :
    (E.leave start t).Shows n names input σ' := by
  refine ⟨fun name hname => ?_, fun i hi hci port hport => ?_, fun i hi shape hshape => ?_⟩
  · exact hE.leave (hstart.inputs name hname) (by simp) (ht.inputs name hname)
  · exact hE.leave (hstart.bits i hi hci port hport) (by simp [Content.ofBit])
      (ht.bits i hi hci port hport)
  · obtain ⟨_, hold, -⟩ := hstart.tables i hi shape hshape
    obtain ⟨cells, hget, hcells⟩ := ht.tables i hi shape hshape
    exact ⟨cells, hE.leave hold (by simp) hget, hcells⟩

/-- A turn is a cycle: it returns the packed outputs if the exit flag is set, and else leaves a
store that shows the state after the cycle. -/
theorem turn_spec [Machine] (hE : E.Lawful d fits accepts) (h : n.Compiled d exit s)
    (hfits : ∀ i ∈ n.instances, ∀ shape, MemoryShape.ofInstance i = .ok shape →
      fits shape.dataWidth ∧ fits shape.addressWidth)
    (haccepts : ∀ name ∈ s.inputs, accepts (input name)) (title : Text) (hsized : n.Sized σ)
    (hv : n.Settles input σ v) {start : Store} (hstart : start.Shows n s.inputs input σ) :
    (v.at exit = true → E.turn (s.procedure d title n.outputs exit) start =
        .ok (.returned (.ofWord (n.packed v)))) ∧
      (v.at exit = false → ∃ t, E.turn (s.procedure d title n.outputs exit) start =
        .ok (.running t) ∧ t.Shows n s.inputs input (n.step σ v)) := by
  obtain ⟨t, hrun, hsettled⟩ := settle_block hE h hv hstart haccepts
  have hwires := hsettled.showsWires h hv hstart
  have hflag : E.flag t (.wire exit) = .ok (v.at exit) := by
    obtain ⟨o, ho, rfl⟩ := h.exit
    obtain ⟨hnumbered, hwire⟩ := h.output_hasWire ho
    exact hE.flag (hwires o.2 hnumbered hwire)
  constructor
  · intro hexit
    rw [hexit] at hflag
    have hlength : (n.outputs.map Prod.snd).length = n.outputs.length := List.length_map ..
    have hbits : ∀ (k : Nat) (w : Wire), (n.outputs.map Prod.snd)[k]? = some w →
        t.get (.wire w) = .ok (.ofBit ((n.outputs[k]?).any fun o => v.at o.2)) := by
      intro k w hw
      rw [List.getElem?_map, Option.map_eq_some_iff] at hw
      obtain ⟨o, ho, rfl⟩ := hw
      obtain ⟨hnumbered, hwire⟩ := h.output_hasWire (List.mem_of_getElem? ho)
      rw [ho]
      exact hwires o.2 hnumbered hwire
    have hresult := hE.result (p := s.procedure d title n.outputs exit)
      (by rw [List.map_map]; rfl) (by rw [hlength]; exact List.length_map ..)
      (by rw [hlength]; exact h.limit) hbits
    rw [hlength] at hresult
    exact Engine.turn_returned hrun hflag hresult
  · intro hexit
    rw [hexit] at hflag
    have hshows := hsettled.shows h hstart hv
    obtain ⟨u, hnext, hprepared⟩ := next_block hE h hv hsized hfits hwires hshows.tables
    obtain ⟨w, hcommit, hcommitted⟩ := commit_block hE h hfits hprepared
    exact ⟨_, Engine.turn_running hrun hflag hnext hcommit,
      hstart.leave hE (hcommitted.shows h hshows hprepared)⟩

/-- A procedure and a netlist are in the same place: both have returned the same number, or the
store of the one shows the state of the other. -/
def Progress.Agrees [Machine] (n : Netlist) (names : List Text) (input : Text → Int) :
    Progress → Stage → Prop
  | .running t, .running σ => t.Shows n names input σ
  | .returned c, .returned result => c = .ofWord result
  | _, _ => False

/-- After any number of turns a procedure is where its netlist is after as many cycles. -/
theorem turns_agree [Machine] (hE : E.Lawful d fits accepts) (h : n.Compiled d exit s)
    (hfits : ∀ i ∈ n.instances, ∀ shape, MemoryShape.ofInstance i = .ok shape →
      fits shape.dataWidth ∧ fits shape.addressWidth)
    (haccepts : ∀ name ∈ s.inputs, accepts (input name)) (title : Text) {start : Store}
    (hstart : start.Shows n s.inputs input n.initial) {k : Nat} {stage : Stage}
    (hk : n.Reaches input exit k stage) :
    ∃ here, E.turns (s.procedure d title n.outputs exit) start k = .ok here ∧
      here.Agrees n s.inputs input stage := by
  induction hk with
  | start => exact ⟨.running start, rfl, hstart⟩
  | advance hσ hv hexit ih =>
    obtain ⟨here, hturns, hagrees⟩ := ih
    cases here with
    | returned => cases hagrees
    | running t =>
      obtain ⟨u, hturn, hshows⟩ :=
        (turn_spec hE h hfits haccepts title (hσ.sized _ rfl) hv hagrees).2 hexit
      exact ⟨.running u, bind_eq_ok.2 ⟨_, hturns, hturn⟩, hshows⟩
  | leave hσ hv hexit ih =>
    obtain ⟨here, hturns, hagrees⟩ := ih
    cases here with
    | returned => cases hagrees
    | running t =>
      have hturn := (turn_spec hE h hfits haccepts title (hσ.sized _ rfl) hv hagrees).1 hexit
      exact ⟨_, bind_eq_ok.2 ⟨_, hturns, hturn⟩, rfl⟩
  | rest _ ih =>
    obtain ⟨here, hturns, hagrees⟩ := ih
    cases here with
    | running => cases hagrees
    | returned c => exact ⟨.returned c, bind_eq_ok.2 ⟨_, hturns, rfl⟩, hagrees⟩

end

end Latchwork
