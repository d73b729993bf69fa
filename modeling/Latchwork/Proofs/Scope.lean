import Latchwork.Proofs.Simulation

/-!
# Compiled procedures are well scoped

A compiled procedure introduces every name once: its parameters, the cells and storages that are
declared before the loop, and what the statements of the loop bind. No two of them are spelled
alike, whatever the ids and the names of inputs are. And every statement of the loop reads only
names that are there when its turn comes: those from before the loop, and those that a statement
before it has bound in the same turn.

That two names differ follows from the component they belong to and from what they are for. That a
name is there follows from the schedule for the wires, and from the order of the parts of a memory
for its words.
-/

namespace Latchwork

open Outcome

/-! ### Names in expressions, statements and procedures -/

/-- The names that an expression reads. -/
def Expr.names : Expr → List Name
  | .name m => [m]
  | .literal _ => []
  | .wideLiteral _ => []
  | .widen e => e.names
  | .binary _ a b => a.names ++ b.names
  | .shiftLeft e _ => e.names
  | .shiftRight e _ => e.names
  | .choose condition whenSet whenClear => condition.names ++ whenSet.names ++ whenClear.names
  | .element storage address => [storage, address]

namespace Statement

/-- The names that a statement reads. A store reads the storage that it changes. -/
def reads : Statement → List Name
  | .bind _ value _ => value.names
  | .bindWord _ value => value.names
  | .assign _ value => value.names
  | .store enable storage address data => [enable, storage, address, data]

/-- The names that a statement introduces. -/
def binds : Statement → List Name
  | .bind dest _ _ => [dest]
  | .bindWord dest _ => [dest]
  | .assign .. => []
  | .store .. => []

/-- The names that a statement changes without introducing them. -/
def changes : Statement → List Name
  | .bind .. => []
  | .bindWord .. => []
  | .assign dest _ => [dest]
  | .store _ storage _ _ => [storage]

/-- All names of a statement. -/
def names (st : Statement) : List Name := st.reads ++ st.binds ++ st.changes

end Statement

/-- The names that a declaration introduces. -/
def Declaration.names : Declaration → List Name
  | .cells names _ => names
  | .storage name _ => [name]

namespace Procedure

/-- The statements of one turn of the loop, in order. -/
def body (p : Procedure) : List Statement := p.settle ++ p.next ++ p.commit

/-- The names that are there before the loop: parameters, cells and storages. -/
def lasting (p : Procedure) : List Name :=
  p.inputs.map .given ++ p.declarations.flatMap Declaration.names

/-- The names that are there once some statements of a turn have run. -/
def scope (p : Procedure) (before : List Statement) : List Name :=
  p.lasting ++ before.flatMap Statement.binds

/-- Every name that is introduced, before the loop or in it. -/
def declared (p : Procedure) : List Name := p.scope p.body

/-- A procedure that introduces no spelling twice and reads and changes only what is there. -/
structure IsScoped (p : Procedure) : Prop where
  distinct : (p.declared.map Name.text).Nodup
  reads : ∀ before st after, p.body = before ++ st :: after → ∀ m ∈ st.reads, m ∈ p.scope before
  changes : ∀ st ∈ p.body, ∀ m ∈ st.changes, m ∈ p.lasting
  exit : ∀ m ∈ p.exitFlag :: p.result.names, m ∈ p.scope p.settle

end Procedure

/-! ### Names of words and bits -/

namespace Expr

private theorem mem_names_joined {op : Operator} {terms : List Expr} {m : Name} :
    m ∈ (joined op terms).names ↔ ∃ e ∈ terms, m ∈ e.names := by
  induction terms using List.reverseRecOn with
  | nil => simp [joined, names]
  | append_singleton terms e ih =>
    rw [joined_concat]
    by_cases hterms : terms = []
    · simp [hterms]
    · rw [if_neg hterms, names, List.mem_append, ih]
      simp [or_and_right, exists_or]

private theorem mem_names_joined_bus {op : Operator} {place : Nat → Expr → Expr} {bus : List Wire}
    {m : Name} (hplace : ∀ k e, (place k e).names = e.names) :
    m ∈ (joined op ((bus.map wire).mapIdx place)).names ↔ ∃ w ∈ bus, m = .wire w := by
  rw [mem_names_joined]
  constructor
  · rintro ⟨e, he, hm⟩
    obtain ⟨k, hk, rfl⟩ := List.mem_mapIdx.1 he
    rw [List.getElem_map, hplace] at hm
    exact ⟨_, List.getElem_mem _, List.mem_singleton.1 hm⟩
  · rintro ⟨w, hw, rfl⟩
    obtain ⟨k, hk, rfl⟩ := List.mem_iff_getElem.1 hw
    refine ⟨_, List.mem_mapIdx.2 ⟨k, by rwa [List.length_map], rfl⟩, ?_⟩
    rw [List.getElem_map, hplace]
    exact .head _

theorem mem_names_word {d : Dialect} {bus : List Wire} {m : Name} :
    m ∈ (word d (bus.map wire)).names ↔ ∃ w ∈ bus, m = .wire w := by
  apply mem_names_joined_bus
  intro k e
  unfold shifted
  split
  · rfl
  · split <;> rfl

theorem mem_names_packed {d : Dialect} {bus : List Wire} {m : Name} :
    m ∈ (packed d (bus.map wire)).names ↔ ∃ w ∈ bus, m = .wire w := by
  apply mem_names_joined_bus
  intro k e
  split
  · rfl
  · unfold scaled
    split <;> rfl

theorem names_bit (e : Expr) (index : Nat) : (bit e index).names = e.names := by
  unfold bit
  split <;> exact List.append_nil _

end Expr

/-! ### Statements in a scope -/

/-- Statements that read only names of a scope, or names that one before them has bound. -/
def ScopedFrom (scope : List Name) : List Statement → Prop
  | [] => True
  | st :: rest => (∀ m ∈ st.reads, m ∈ scope) ∧ ScopedFrom (scope ++ st.binds) rest

section ScopedFrom

variable {scope : List Name} {xs ys : List Statement}

theorem scopedFrom_append :
    ScopedFrom scope (xs ++ ys) ↔
      ScopedFrom scope xs ∧ ScopedFrom (scope ++ xs.flatMap Statement.binds) ys := by
  induction xs generalizing scope with
  | nil => simp [ScopedFrom]
  | cons st xs ih => simp [ScopedFrom, ih, and_assoc]

private theorem ScopedFrom.reads (h : ScopedFrom scope xs) {before after : List Statement}
    {st : Statement} (hsplit : xs = before ++ st :: after) :
    ∀ m ∈ st.reads, m ∈ scope ++ before.flatMap Statement.binds := by
  rw [hsplit, scopedFrom_append] at h
  exact h.2.1

private theorem ScopedFrom.mono {scope' : List Name} (hsub : ∀ m ∈ scope, m ∈ scope')
    (h : ScopedFrom scope xs) : ScopedFrom scope' xs := by
  induction xs generalizing scope scope' with
  | nil => trivial
  | cons st xs ih =>
    refine ⟨fun m hm => hsub m (h.1 m hm), ih (fun m hm => ?_) h.2⟩
    rcases List.mem_append.1 hm with hm | hm
    · exact List.mem_append_left _ (hsub m hm)
    · exact List.mem_append_right _ hm

private theorem scopedFrom_of_reads (h : ∀ st ∈ xs, ∀ m ∈ st.reads, m ∈ scope) :
    ScopedFrom scope xs := by
  induction xs with
  | nil => trivial
  | cons st xs ih =>
    refine ⟨h st (.head _), ?_⟩
    exact (ih fun st' hst' => h st' (.tail _ hst')).mono fun m hm => List.mem_append_left _ hm

private theorem scopedFrom_flatMap {cs : List Component} {f : Component → List Statement}
    (h : ∀ before c after, cs = before ++ c :: after →
      ScopedFrom (scope ++ (before.flatMap f).flatMap Statement.binds) (f c)) :
    ScopedFrom scope (cs.flatMap f) := by
  induction cs using List.reverseRecOn with
  | nil => trivial
  | append_singleton cs c ih =>
    rw [List.flatMap_append, scopedFrom_append]
    constructor
    · apply ih
      intro before c' after hsplit
      exact h before c' (after ++ [c]) (by simp [hsplit])
    · simpa using h cs c [] rfl

end ScopedFrom

/-! ### The names of a component -/

private theorem flatMap_mapIdx {α β γ : Type} {f : Nat → α → β} {g : β → List γ} {h : Nat → List γ}
    (hg : ∀ k x, g (f k x) = h k) (xs : List α) :
    (xs.mapIdx f).flatMap g = (List.range xs.length).flatMap h := by
  induction xs using List.reverseRecOn with
  | nil => rfl
  | append_singleton xs x ih =>
    rw [List.mapIdx_concat, List.flatMap_append, ih, List.flatMap_singleton, hg, List.length_append,
      List.length_singleton, List.range_succ, List.flatMap_append, List.flatMap_singleton]

/-- The id of the component that a name belongs to. -/
def Name.owner? : Name → Option Index
  | .wire w => some w.driver
  | m => m.holder?

namespace Component

variable {c : Component} {d : Dialect} {m : Name}

private theorem mem_names_declare (hseq : c.cell.isSequential = true) :
    m ∈ c.declare.flatMap Declaration.names ↔
      (∃ k < c.cell.outputCount, m = .wire (c.wire k)) ∨
        c.cell.isMemory = true ∧ m = .storage c.id := by
  cases hcell : c.cell with
  | register init enable data =>
    simp [declare, hcell, Declaration.names, Cell.isMemory, Cell.outputCount]
  | memory shape ports =>
    simp [declare, hcell, Declaration.names, Cell.isMemory, Cell.outputCount, eq_comm]
  | _ =>
    rw [hcell] at hseq
    cases hseq

/-- A combinational component binds its output. It reads the wires of its cell, or an input. -/
theorem exists_settle_eq (hseq : c.cell.isSequential = false) :
    ∃ st, c.settle = [st] ∧ st.binds = [.wire (c.wire 0)] ∧ st.changes = [] ∧
      ∀ m, m ∈ st.reads ↔
        (∃ w ∈ c.cell.reads, m = .wire w) ∨ ∃ name, c.cell = .input name ∧ m = .given name := by
  cases hcell : c.cell with
  | constant value =>
    refine ⟨_, by rw [settle, hcell], rfl, rfl, fun m => ?_⟩
    simp [Statement.reads, Expr.names, Cell.reads]
  | inverter a =>
    refine ⟨_, by rw [settle, hcell], rfl, rfl, fun m => ?_⟩
    simp [Statement.reads, Expr.names, Expr.wire, Cell.reads]
  | gate op a b =>
    refine ⟨_, settle_gate hcell, rfl, rfl, fun m => ?_⟩
    simp [Statement.reads, Expr.names, Expr.wire, Cell.reads]
  | multiplexer select whenSet whenClear =>
    refine ⟨_, by rw [settle, hcell], rfl, rfl, fun m => ?_⟩
    simp [Statement.reads, Expr.names, Expr.wire, Cell.reads, or_comm, or_left_comm]
  | input name =>
    refine ⟨_, by rw [settle, hcell], rfl, rfl, fun m => ?_⟩
    simp [Statement.reads, Expr.names, Cell.reads]
  | register init enable data =>
    rw [hcell] at hseq
    cases hseq
  | memory shape ports =>
    rw [hcell] at hseq
    cases hseq

private theorem binds_settle (hseq : c.cell.isSequential = false) :
    c.settle.flatMap Statement.binds = [.wire (c.wire 0)] := by
  obtain ⟨st, hst, hbinds, -⟩ := exists_settle_eq hseq
  rw [hst, List.flatMap_singleton, hbinds]

private theorem binds_commit (c : Component) : c.commit.flatMap Statement.binds = [] := by
  refine List.flatMap_eq_nil_iff.2 fun st hst => ?_
  unfold commit at hst
  split at hst
  · rw [List.mem_singleton.1 hst]
    rfl
  · obtain ⟨k, port, -, hst⟩ := mem_flatten_mapIdx.1 hst
    obtain ⟨b, hb, rfl⟩ := List.mem_mapIdx.1 hst
    rfl
  · cases hst

private theorem binds_next_register {init : Bool} {enable : Option Wire} {data : Wire}
    (hcell : c.cell = .register init enable data) :
    (c.next d).flatMap Statement.binds = [.next c.id] := by
  rw [next, hcell]
  cases enable <;> rfl

/-- The words of a memory: address and data of each port, then what each port reads. -/
theorem binds_next_memory {shape : MemoryShape} {ports : List MemoryPort}
    (hcell : c.cell = .memory shape ports) :
    (c.next d).flatMap Statement.binds =
      (List.range ports.length).flatMap (fun k => [.address c.id k, .data c.id k]) ++
        (List.range ports.length).flatMap fun k => [.read c.id k] := by
  have hwords : (ports.mapIdx (portWords d c.id)).flatten.flatMap Statement.binds =
      (List.range ports.length).flatMap fun k => [.address c.id k, .data c.id k] := by
    rw [List.flatten_eq_flatMap, List.flatMap_assoc]
    apply flatMap_mapIdx
    intro k port
    rfl
  have hwrites : (ports.mapIdx (portWrite c.id)).flatMap Statement.binds = [] := by
    refine List.flatMap_eq_nil_iff.2 fun st hst => ?_
    obtain ⟨k, hk, rfl⟩ := List.mem_mapIdx.1 hst
    rfl
  have hreads : (ports.mapIdx fun k _ => portRead c.id k).flatMap Statement.binds =
      (List.range ports.length).flatMap fun k => [.read c.id k] := by
    apply flatMap_mapIdx
    intro k port
    rfl
  rw [next, hcell]
  simp only [List.flatMap_append, hwords, hwrites, hreads, List.append_nil]

private theorem mem_binds_next_memory {shape : MemoryShape} {ports : List MemoryPort}
    (hcell : c.cell = .memory shape ports) :
    m ∈ (c.next d).flatMap Statement.binds ↔
      ∃ k < ports.length, m = .address c.id k ∨ m = .data c.id k ∨ m = .read c.id k := by
  rw [binds_next_memory hcell]
  simp only [List.mem_append, List.mem_flatMap, List.mem_range, List.mem_cons, List.not_mem_nil,
    or_false]
  constructor
  · rintro (⟨k, hk, hm | hm⟩ | ⟨k, hk, hm⟩)
    · exact ⟨k, hk, .inl hm⟩
    · exact ⟨k, hk, .inr (.inl hm)⟩
    · exact ⟨k, hk, .inr (.inr hm)⟩
  · rintro ⟨k, hk, hm | hm | hm⟩
    · exact .inl ⟨k, hk, .inl hm⟩
    · exact .inl ⟨k, hk, .inr hm⟩
    · exact .inr ⟨k, hk, hm⟩

/-- What a component binds for its next state is held by it, and is not its storage. -/
theorem holder?_of_mem_binds_next (hm : m ∈ (c.next d).flatMap Statement.binds) :
    m.holder? = some c.id ∧ m ≠ .storage c.id := by
  cases hcell : c.cell with
  | register init enable data =>
    rw [binds_next_register hcell, List.mem_singleton] at hm
    rw [hm]
    exact ⟨rfl, nofun⟩
  | memory shape ports =>
    obtain ⟨k, -, rfl | rfl | rfl⟩ := (mem_binds_next_memory hcell).1 hm <;> exact ⟨rfl, nofun⟩
  | _ =>
    rw [next, hcell] at hm
    cases hm

private theorem nodup_names_declare (c : Component) :
    (c.declare.flatMap Declaration.names).Nodup := by
  cases hcell : c.cell with
  | memory shape ports =>
    have hwires : ((List.range shape.outputCount).map fun k => Name.wire (c.wire k)).Nodup := by
      refine List.nodup_range.map fun a b hab => ?_
      simpa [wire] using hab
    simp only [declare, hcell, Declaration.names, List.flatMap_cons, List.flatMap_nil,
      List.append_nil]
    refine List.nodup_append.2 ⟨hwires, List.nodup_singleton _, ?_⟩
    simp
  | _ => simp [declare, hcell, Declaration.names]

/-- A component binds no name twice for its next state. -/
theorem nodup_binds_next (c : Component) (d : Dialect) :
    ((c.next d).flatMap Statement.binds).Nodup := by
  cases hcell : c.cell with
  | register init enable data =>
    rw [binds_next_register hcell]
    exact List.nodup_singleton _
  | memory shape ports =>
    rw [binds_next_memory hcell]
    refine List.nodup_append.2 ⟨?_, ?_, ?_⟩
    · refine List.nodup_flatMap.2 ⟨fun k _ => by simp, List.nodup_range.imp fun hne => ?_⟩
      simpa [List.disjoint_left, Function.onFun, eq_comm] using hne
    · refine List.nodup_flatMap.2 ⟨fun k _ => by simp, List.nodup_range.imp fun hne => ?_⟩
      simpa [List.disjoint_left, Function.onFun, eq_comm] using hne
    · simp only [List.mem_flatMap]
      rintro a ⟨k, -, ha⟩ b ⟨k', -, hb⟩ rfl
      simp only [List.mem_cons, List.not_mem_nil, or_false] at ha hb
      rw [hb] at ha
      rcases ha with ha | ha <;> cases ha
  | _ => simp [next, hcell]

end Component

/-! ### Names are introduced once -/

/-- A list without its repetitions has none. -/
theorem nodup_eraseDups {α : Type} [BEq α] [LawfulBEq α] (xs : List α) : xs.eraseDups.Nodup := by
  induction hlength : xs.length using Nat.strongRecOn generalizing xs with
  | ind k ih =>
    cases xs with
    | nil => simp
    | cons x xs =>
      rw [List.eraseDups_cons, List.nodup_cons]
      constructor
      · simp
      · refine ih _ ?_ _ rfl
        have := List.length_filter_le (fun y => !y == x) xs
        rw [← hlength, List.length_cons]
        omega

private theorem nodup_flatMap_of_owner {cs : List Component} {f : Component → List Name}
    (hcs : (cs.map (·.id)).Nodup) (hf : ∀ c ∈ cs, (f c).Nodup)
    (howner : ∀ c ∈ cs, ∀ m ∈ f c, m.owner? = some c.id) : (cs.flatMap f).Nodup := by
  refine List.nodup_flatMap.2 ⟨hf, (List.pairwise_map.1 hcs).imp_of_mem ?_⟩
  intro a b ha hb hne m hma hmb
  have hid := (howner a ha m hma).symm.trans (howner b hb m hmb)
  exact hne (Option.some.inj hid)

namespace Netlist.Compiled

variable {n : Netlist} {d : Dialect} {exit : Wire} {s : Schedule} {m : Name}

private theorem nodup_id_of_nodup [Machine] (h : n.Compiled d exit s) {cs : List Component}
    (hcs : cs.Nodup) (hmem : ∀ c ∈ cs, c ∈ s.components) : (cs.map (·.id)).Nodup :=
  hcs.map_on fun a ha b hb hid => h.eq_of_id_eq (hmem a ha) (hmem b hb) hid

private theorem nodup_combinational [Machine] (h : n.Compiled d exit s) :
    s.combinational.Nodup := by
  obtain ⟨-, hcs, hs⟩ := schedule_ok h.schedule
  have hd := nodup_numbers hcs
  have hdistinct : s.components.Nodup := .of_map _ hd
  exact (Schedule.ofComponents_ok hd hs).2.1.nodup_iff.2 (hdistinct.filter _)

theorem mem_names_declarations :
    m ∈ (s.sequential.flatMap Component.declare).flatMap Declaration.names ↔
      ∃ c ∈ s.sequential, (∃ k < c.cell.outputCount, m = .wire (c.wire k)) ∨
        c.cell.isMemory = true ∧ m = .storage c.id := by
  rw [List.flatMap_assoc, List.mem_flatMap]
  refine exists_congr fun c => and_congr_right fun hc => ?_
  exact Component.mem_names_declare (mem_sequential.1 hc).2

theorem mem_binds_settle [Machine] (h : n.Compiled d exit s) {cs : List Component}
    (hcs : ∀ c ∈ cs, c ∈ s.combinational) :
    m ∈ (cs.flatMap Component.settle).flatMap Statement.binds ↔
      ∃ c ∈ cs, m = .wire (c.wire 0) := by
  rw [List.flatMap_assoc, List.mem_flatMap]
  refine exists_congr fun c => and_congr_right fun hc => ?_
  rw [Component.binds_settle (h.mem_combinational.1 (hcs c hc)).2, List.mem_singleton]

private theorem binds_commit (s : Schedule) :
    (s.sequential.flatMap Component.commit).flatMap Statement.binds = [] := by
  rw [List.flatMap_assoc]
  exact List.flatMap_eq_nil_iff.2 fun c _ => c.binds_commit

/-- The names of a compiled procedure, in order. -/
theorem declared_eq (s : Schedule) (d : Dialect) (title : Text) (outputs : List (Text × Wire))
    (exit : Wire) :
    (s.procedure d title outputs exit).declared =
      (s.inputs.map .given ++
        (s.sequential.flatMap Component.declare).flatMap Declaration.names) ++
      ((s.combinational.flatMap Component.settle).flatMap Statement.binds ++
        (s.sequential.flatMap (Component.next d)).flatMap Statement.binds) := by
  rw [Procedure.declared, Procedure.scope, Procedure.body, List.flatMap_append,
    List.flatMap_append]
  change _ ++ (_ ++ (s.sequential.flatMap Component.commit).flatMap Statement.binds) = _
  rw [binds_commit, List.append_nil]
  rfl

/-- Every name of a compiled procedure is proper. -/
theorem isProper_of_mem_declared [Machine] (h : n.Compiled d exit s) {title : Text}
    (hm : m ∈ (s.procedure d title n.outputs exit).declared) : m.IsProper := by
  rw [declared_eq, List.mem_append, List.mem_append, List.mem_append] at hm
  rcases hm with (hm | hm) | hm | hm
  · obtain ⟨name, hname, rfl⟩ := List.mem_map.1 hm
    exact h.given_isProper hname
  · obtain ⟨c, hc, ⟨k, -, rfl⟩ | ⟨-, rfl⟩⟩ := mem_names_declarations.1 hm
    · exact h.wire_isProper (mem_sequential.1 hc).1 k
    · exact h.isNumber (mem_sequential.1 hc).1
  · obtain ⟨c, hc, rfl⟩ := (h.mem_binds_settle fun _ hc => hc).1 hm
    exact h.wire_isProper (h.mem_combinational.1 hc).1 0
  · rw [List.flatMap_assoc] at hm
    obtain ⟨c, hc, hm⟩ := List.mem_flatMap.1 hm
    have hholder := (Component.holder?_of_mem_binds_next hm).1
    have hid := h.isNumber (mem_sequential.1 hc).1
    cases m with
    | given name => cases hholder
    | wire w => cases hholder
    | next id | storage id | address id k | data id k | read id k =>
      cases hholder
      exact hid

/-- The names that are there before the loop are introduced once. -/
theorem nodup_lasting [Machine] (h : n.Compiled d exit s) :
    (s.inputs.map Name.given ++
      (s.sequential.flatMap Component.declare).flatMap Declaration.names).Nodup := by
  refine List.nodup_append.2 ⟨?_, ?_, ?_⟩
  · refine List.Nodup.map (fun a b hab => Name.given.inj hab) ?_
    exact nodup_eraseDups _
  · have hsequential : (s.sequential.map (·.id)).Nodup :=
      h.nodup_id_of_nodup h.nodup_sequential fun c hc => (mem_sequential.1 hc).1
    rw [List.flatMap_assoc]
    refine nodup_flatMap_of_owner hsequential (fun c _ => c.nodup_names_declare) ?_
    intro c hc m hm
    obtain ⟨k, -, rfl⟩ | ⟨-, rfl⟩ := (Component.mem_names_declare (mem_sequential.1 hc).2).1 hm
    · rfl
    · rfl
  · -- an input is no cell and no storage
    rintro a ha b hb rfl
    obtain ⟨name, -, rfl⟩ := List.mem_map.1 ha
    obtain ⟨c, -, ⟨k, -, hname⟩ | ⟨-, hname⟩⟩ := mem_names_declarations.1 hb <;> cases hname

private theorem exists_holder?_of_mem_binds_next
    (hm : m ∈ (s.sequential.flatMap (Component.next d)).flatMap Statement.binds) :
    ∃ id, m.holder? = some id ∧ m ≠ .storage id := by
  rw [List.flatMap_assoc] at hm
  obtain ⟨c, -, hm⟩ := List.mem_flatMap.1 hm
  exact ⟨c.id, Component.holder?_of_mem_binds_next hm⟩

private theorem nodup_binds_settle [Machine] (h : n.Compiled d exit s) :
    ((s.combinational.flatMap Component.settle).flatMap Statement.binds).Nodup := by
  have hcombinational : (s.combinational.map (·.id)).Nodup :=
    h.nodup_id_of_nodup h.nodup_combinational fun c hc => (h.mem_combinational.1 hc).1
  rw [List.flatMap_assoc]
  refine nodup_flatMap_of_owner hcombinational (fun c hc => ?_) fun c hc m hm => ?_
  · rw [Component.binds_settle (h.mem_combinational.1 hc).2]
    exact List.nodup_singleton _
  · rw [Component.binds_settle (h.mem_combinational.1 hc).2, List.mem_singleton] at hm
    rw [hm]
    rfl

private theorem nodup_binds_next [Machine] (h : n.Compiled d exit s) :
    ((s.sequential.flatMap (Component.next d)).flatMap Statement.binds).Nodup := by
  have hsequential : (s.sequential.map (·.id)).Nodup :=
    h.nodup_id_of_nodup h.nodup_sequential fun c hc => (mem_sequential.1 hc).1
  rw [List.flatMap_assoc]
  refine nodup_flatMap_of_owner hsequential (fun c _ => c.nodup_binds_next d) ?_
  intro c hc m hm
  have hholder := (Component.holder?_of_mem_binds_next hm).1
  cases m with
  | given name => cases hholder
  | wire w => cases hholder
  | _ => exact hholder

/-- A wire that settles is not there before the loop: a component settles or holds state, but not
both. -/
theorem not_mem_binds_settle [Machine] (h : n.Compiled d exit s)
    (hm : m ∈ s.inputs.map .given ++
      (s.sequential.flatMap Component.declare).flatMap Declaration.names) :
    m ∉ (s.combinational.flatMap Component.settle).flatMap Statement.binds := by
  intro hbind
  obtain ⟨b, hb, rfl⟩ := (h.mem_binds_settle fun _ hc => hc).1 hbind
  rcases List.mem_append.1 hm with hm | hm
  · obtain ⟨name, -, hname⟩ := List.mem_map.1 hm
    cases hname
  · obtain ⟨c, hc, ⟨k, -, hname⟩ | ⟨-, hname⟩⟩ := mem_names_declarations.1 hm
    · obtain ⟨hc, hcseq⟩ := mem_sequential.1 hc
      obtain ⟨hb, hbseq⟩ := h.mem_combinational.1 hb
      have hid : b.id = c.id := congrArg Wire.driver (Name.wire.inj hname)
      rw [← h.eq_of_id_eq hb hc hid, hbseq] at hcseq
      cases hcseq
    · cases hname

private theorem not_mem_binds_next
    (hm : m ∈ s.inputs.map .given ++
      (s.sequential.flatMap Component.declare).flatMap Declaration.names) :
    m ∉ (s.sequential.flatMap (Component.next d)).flatMap Statement.binds := by
  intro hbind
  obtain ⟨id, hholder, hne⟩ := exists_holder?_of_mem_binds_next hbind
  rcases List.mem_append.1 hm with hm | hm
  · obtain ⟨name, -, rfl⟩ := List.mem_map.1 hm
    cases hholder
  · obtain ⟨c, -, ⟨k, -, rfl⟩ | ⟨-, rfl⟩⟩ := mem_names_declarations.1 hm
    · cases hholder
    · cases hholder
      exact hne rfl

private theorem nodup_declared [Machine] (h : n.Compiled d exit s) (title : Text) :
    (s.procedure d title n.outputs exit).declared.Nodup := by
  rw [declared_eq]
  refine List.nodup_append.2 ⟨h.nodup_lasting,
    List.nodup_append.2 ⟨h.nodup_binds_settle, h.nodup_binds_next, ?_⟩, ?_⟩
  · -- a wire holds no next state
    rintro a ha b hb rfl
    obtain ⟨c, -, rfl⟩ := (h.mem_binds_settle fun _ hc => hc).1 ha
    obtain ⟨id, hholder, -⟩ := exists_holder?_of_mem_binds_next hb
    cases hholder
  · rintro a ha b hb rfl
    rcases List.mem_append.1 hb with hb | hb
    · exact h.not_mem_binds_settle ha hb
    · exact not_mem_binds_next ha hb

end Netlist.Compiled

/-! ### What the statements of a turn are -/

/-- A numbered wire that an instance of the netlist drives. -/
def Netlist.IsWire (n : Netlist) (w : Wire) : Prop :=
  w.IsNumbered ∧ n.HasWire w.driver.value w.port.value

/-- The statements of a turn, for components of a schedule. Every statement reads wires of the
netlist, inputs, and names of its own component only. -/
inductive Emitted (n : Netlist) (d : Dialect) (s : Schedule) : Statement → Prop where
  | settle {c : Component} (hc : c ∈ s.combinational) {st : Statement} (hst : c.settle = [st]) :
    Emitted n d s st
  | follow {c : Component} (hc : c ∈ s.sequential) {data : Wire} (hdata : n.IsWire data) :
    Emitted n d s (.bind (.next c.id) (.wire data) none)
  | choose {c : Component} (hc : c ∈ s.sequential) (hregister : c.cell.isRegister = true)
    {enable data : Wire} (henable : n.IsWire enable) (hdata : n.IsWire data) :
    Emitted n d s (.bind (.next c.id) (.choose (.wire enable) (.wire data) (.wire (c.wire 0))) none)
  | address {c : Component} (hc : c ∈ s.sequential) {shape : MemoryShape} {ports : List MemoryPort}
    (hcell : c.cell = .memory shape ports) (k : Nat) {bus : List Wire}
    (hlength : bus.length = shape.addressWidth) (hbus : ∀ w ∈ bus, n.IsWire w) :
    Emitted n d s (.bindWord (.address c.id k) (.word d (bus.map .wire)))
  | data {c : Component} (hc : c ∈ s.sequential) {shape : MemoryShape} {ports : List MemoryPort}
    (hcell : c.cell = .memory shape ports) (k : Nat) {bus : List Wire}
    (hlength : bus.length = shape.dataWidth) (hbus : ∀ w ∈ bus, n.IsWire w) :
    Emitted n d s (.bindWord (.data c.id k) (.word d (bus.map .wire)))
  | write {c : Component} (hc : c ∈ s.sequential) {shape : MemoryShape} {ports : List MemoryPort}
    (hcell : c.cell = .memory shape ports) (k : Nat) {port : MemoryPort}
    (henable : n.IsWire port.enable) : Emitted n d s (Component.portWrite c.id k port)
  | read {c : Component} (hc : c ∈ s.sequential) {shape : MemoryShape} {ports : List MemoryPort}
    (hcell : c.cell = .memory shape ports) (k : Nat) : Emitted n d s (Component.portRead c.id k)
  | commit {c : Component} (hc : c ∈ s.sequential) (hregister : c.cell.isRegister = true) :
    Emitted n d s (.assign (.wire (c.wire 0)) (.name (.next c.id)))
  | pick {c : Component} (hc : c ∈ s.sequential) {shape : MemoryShape} {ports : List MemoryPort}
    (hcell : c.cell = .memory shape ports) {k b : Nat} (hk : k < shape.portCount)
    (hb : b < shape.dataWidth) :
    Emitted n d s
      (.assign (.wire (c.wire (k * shape.dataWidth + b))) (.bit (.name (.read c.id k)) b))

namespace Netlist.Compiled

variable {n : Netlist} {d : Dialect} {exit : Wire} {s : Schedule} {c : Component} {st : Statement}

private theorem isWire_of_mem_inputs [Machine] (h : n.Compiled d exit s) {i : Instance}
    (hi : i ∈ n.instances) {k : Nat} {w : Wire} (hw : i.inputs[k]? = some w) : n.IsWire w :=
  h.input_hasWire hi (List.mem_of_getElem? hw)

private theorem isWire_of_bus [Machine] (h : n.Compiled d exit s) {i : Instance}
    (hi : i ∈ n.instances) {bus : List Wire} {place : Nat → Nat}
    (hbus : ∀ b w, bus[b]? = some w → i.inputs[place b]? = some w) : ∀ w ∈ bus, n.IsWire w := by
  intro w hw
  obtain ⟨b, hb⟩ := List.getElem?_of_mem hw
  exact h.isWire_of_mem_inputs hi (hbus b w hb)

/-- The ports of a memory are those of its instance. -/
theorem exists_ports [Machine] (h : n.Compiled d exit s) (hc : c ∈ s.sequential)
    {shape : MemoryShape} {ports : List MemoryPort} (hcell : c.cell = .memory shape ports) :
    ∃ i ∈ n.instances, i.id = c.id ∧ MemoryShape.ofInstance i = .ok shape ∧
      ports.length = shape.portCount ∧
      ∀ k port, ports[k]? = some port → k < shape.portCount ∧ shape.IsPort i k port := by
  obtain ⟨i, hi, hic⟩ := h.exists_instance (mem_sequential.1 hc).1
  obtain ⟨hcid, -, hfor, -⟩ := Component.ofInstance_ok hic
  rw [hcell] at hfor
  obtain ⟨-, hshape, hlength, rfl⟩ := hfor.of_memory
  exact ⟨i, hi, hcid.symm, hshape, MemoryShape.length_splitPorts hlength, fun k port hport =>
    MemoryShape.isPort_of_getElem? hlength hport⟩

private theorem isWire_of_register [Machine] (h : n.Compiled d exit s) (hc : c ∈ s.sequential)
    {init : Bool}
    {enable : Option Wire} {data : Wire} (hcell : c.cell = .register init enable data) :
    n.IsWire data ∧ ∀ w ∈ enable, n.IsWire w := by
  obtain ⟨i, hi, hic⟩ := h.exists_instance (mem_sequential.1 hc).1
  obtain ⟨-, -, hfor, -⟩ := Component.ofInstance_ok hic
  rw [hcell] at hfor
  generalize c.kind = kind at hfor
  cases hfor with
  | delay hinputs => exact ⟨h.input_hasWire hi (by simp [hinputs]), nofun⟩
  | delayEn hinputs =>
    refine ⟨h.input_hasWire hi (by simp [hinputs]), ?_⟩
    rintro w ⟨⟩
    exact h.input_hasWire hi (by simp [hinputs])

/-- The statements of a memory read wires of the netlist and names of the memory. -/
theorem emitted_memory [Machine] (h : n.Compiled d exit s) (hc : c ∈ s.sequential)
    {shape : MemoryShape}
    {ports : List MemoryPort} (hcell : c.cell = .memory shape ports) (hst : st ∈ c.next d) :
    Emitted n d s st := by
  obtain ⟨i, hi, -, -, -, hports⟩ := h.exists_ports hc hcell
  rw [Component.next, hcell, List.mem_append, List.mem_append] at hst
  rcases hst with (hst | hst) | hst
  · obtain ⟨k, port, hport, hst⟩ := mem_flatten_mapIdx.1 hst
    obtain ⟨-, hport⟩ := hports k port hport
    rcases List.mem_pair.1 hst with rfl | rfl
    · exact .address hc hcell k hport.length_address (h.isWire_of_bus hi hport.address)
    · exact .data hc hcell k hport.length_data (h.isWire_of_bus hi hport.data)
  · obtain ⟨k, hk, rfl⟩ := List.mem_mapIdx.1 hst
    obtain ⟨-, hport⟩ := hports k _ (List.getElem?_eq_getElem hk)
    exact .write hc hcell k (h.isWire_of_mem_inputs hi hport.enable)
  · obtain ⟨k, hk, rfl⟩ := List.mem_mapIdx.1 hst
    exact .read hc hcell k

private theorem emitted_commit [Machine] (h : n.Compiled d exit s) (hc : c ∈ s.sequential)
    (hst : st ∈ c.commit) :
    Emitted n d s st := by
  cases hcell : c.cell with
  | register init enable data =>
    rw [Component.commit, hcell, List.mem_singleton] at hst
    rw [hst]
    exact .commit hc (by rw [hcell]; rfl)
  | memory shape ports =>
    obtain ⟨i, hi, hid, -, -, hports⟩ := h.exists_ports hc hcell
    rw [Component.commit, hcell] at hst
    obtain ⟨k, port, hport, hst⟩ := mem_flatten_mapIdx.1 hst
    obtain ⟨hk, hport⟩ := hports k port hport
    obtain ⟨b, hb, rfl⟩ := List.mem_mapIdx.1 hst
    have hwire : port.output[b] = c.wire (k * shape.dataWidth + b) := by
      rw [hport.output b _ (List.getElem?_eq_getElem hb), Component.wire, ← hid]
      rfl
    rw [hwire]
    exact .pick hc hcell hk (hport.length_output ▸ hb)
  | _ =>
    rw [Component.commit, hcell] at hst
    cases hst

/-- Every statement of a turn has one of these forms. -/
theorem emitted [Machine] (h : n.Compiled d exit s) {title : Text}
    (hst : st ∈ (s.procedure d title n.outputs exit).body) : Emitted n d s st := by
  rw [Procedure.body, List.mem_append, List.mem_append] at hst
  rcases hst with (hst | hst) | hst
  · obtain ⟨c, hc, hst⟩ := List.mem_flatMap.1 hst
    obtain ⟨st', hsettle, -⟩ := Component.exists_settle_eq (h.mem_combinational.1 hc).2
    rw [hsettle, List.mem_singleton] at hst
    exact .settle hc (hst ▸ hsettle)
  · obtain ⟨c, hc, hst⟩ := List.mem_flatMap.1 hst
    cases hcell : c.cell with
    | register init enable data =>
      obtain ⟨hdata, henable⟩ := h.isWire_of_register hc hcell
      rw [Component.next, hcell] at hst
      cases enable with
      | none =>
        rw [List.mem_singleton.1 hst]
        exact .follow hc hdata
      | some enable =>
        rw [List.mem_singleton.1 hst]
        exact .choose hc (by rw [hcell]; rfl) (henable enable rfl) hdata
    | memory shape ports => exact h.emitted_memory hc hcell hst
    | _ =>
      rw [Component.next, hcell] at hst
      cases hst
  · obtain ⟨c, hc, hst⟩ := List.mem_flatMap.1 hst
    exact h.emitted_commit hc hst

/-! ### Names are there when they are read -/

/-- A wire is there once its driver has settled, or from the start if its driver holds state. -/
theorem wire_mem [Machine] (h : n.Compiled d exit s) {before : List Component}
    (hbefore : ∀ b ∈ before, b ∈ s.combinational) {w : Wire} (hw : n.IsWire w)
    (hdone : ∀ b ∈ s.combinational, b.id.value = w.driver.value → b ∈ before) (title : Text) :
    .wire w ∈ (s.procedure d title n.outputs exit).scope (before.flatMap Component.settle) := by
  obtain ⟨i, -, b, hb, -, heq, hport⟩ := h.wire_eq hw.1 hw.2
  have hdriver : b.id.value = w.driver.value :=
    (congrArg (fun w : Wire => w.driver.value) heq).symm
  cases hseq : b.cell.isSequential with
  | true =>
    apply List.mem_append_left
    apply List.mem_append_right
    exact mem_names_declarations.2
      ⟨b, mem_sequential.2 ⟨hb, hseq⟩, .inl ⟨_, hport, congrArg Name.wire heq⟩⟩
  | false =>
    have hzero : w.port.value = 0 := by
      rw [Cell.outputCount_eq_one hseq] at hport
      omega
    rw [hzero] at heq
    apply List.mem_append_right
    exact (h.mem_binds_settle hbefore).2
      ⟨b, hdone b (h.mem_combinational.2 ⟨hb, hseq⟩) hdriver, congrArg Name.wire heq⟩

/-- The block that settles the wires is scoped: the schedule puts drivers before readers. -/
theorem scoped_settle [Machine] (h : n.Compiled d exit s) (title : Text) :
    ScopedFrom (s.procedure d title n.outputs exit).lasting
      (s.combinational.flatMap Component.settle) := by
  apply scopedFrom_flatMap
  intro before c after hsplit
  have hmem : ∀ b ∈ before ++ c :: after, b ∈ s.combinational := fun b hb => hsplit ▸ hb
  obtain ⟨hc, hseq⟩ := h.mem_combinational.1 (hmem c (by simp))
  obtain ⟨i, hi, hic⟩ := h.exists_instance hc
  have hci : i.isCombinational = true := by rw [Instance.isCombinational_eq hic, hseq]; rfl
  obtain ⟨st, hsettle, -, -, hreads⟩ := Component.exists_settle_eq hseq
  rw [hsettle]
  refine ⟨fun m hm => ?_, trivial⟩
  rcases (hreads m).1 hm with ⟨w, hw, rfl⟩ | ⟨name, hname, rfl⟩
  · refine h.wire_mem (fun b hb => hmem b (List.mem_append_left _ hb))
      (h.input_hasWire hi (Instance.reads_eq hic hci ▸ hw)) (fun b hb hid => ?_) title
    obtain ⟨hb, hbseq⟩ := h.mem_combinational.1 hb
    obtain ⟨-, hcs, hs⟩ := schedule_ok h.schedule
    obtain ⟨-, -, horder⟩ := Schedule.ofComponents_ok (nodup_numbers hcs) hs
    exact horder before c after hsplit w hw b hb hbseq hid
  · apply List.mem_append_left
    apply List.mem_append_left
    refine List.mem_map_of_mem (List.mem_eraseDups.2 (List.mem_filterMap.2 ⟨c, hc, ?_⟩))
    rw [Component.inputName?, hname]

/-- All wires are there once all components have settled. -/
theorem wire_mem_settled [Machine] (h : n.Compiled d exit s) {w : Wire} (hw : n.IsWire w)
    (title : Text) :
    .wire w ∈ (s.procedure d title n.outputs exit).scope
      (s.procedure d title n.outputs exit).settle :=
  h.wire_mem (fun _ hb => hb) hw (fun _ hb _ => hb) title

private theorem storage_mem (hc : c ∈ s.sequential) {shape : MemoryShape} {ports : List MemoryPort}
    (hcell : c.cell = .memory shape ports) (d : Dialect) (title : Text)
    (outputs : List (Text × Wire)) (exit : Wire) :
    .storage c.id ∈ (s.procedure d title outputs exit).lasting := by
  apply List.mem_append_right
  exact mem_names_declarations.2 ⟨c, hc, .inr ⟨by rw [hcell]; rfl, rfl⟩⟩

/-- The statement that computes the next value of a register is scoped. -/
theorem scoped_next_register [Machine] (h : n.Compiled d exit s) (title : Text)
    (hc : c ∈ s.sequential) {init : Bool} {enable : Option Wire} {data : Wire}
    (hcell : c.cell = .register init enable data) :
    ScopedFrom ((s.procedure d title n.outputs exit).scope
      (s.procedure d title n.outputs exit).settle) (c.next d) := by
  obtain ⟨hdata, henable⟩ := h.isWire_of_register hc hcell
  rw [Component.next, hcell]
  cases enable with
  | none =>
    refine ⟨fun m hm => ?_, trivial⟩
    rw [List.mem_singleton.1 hm]
    exact h.wire_mem_settled hdata title
  | some enable =>
    refine ⟨fun m hm => ?_, trivial⟩
    simp only [Statement.reads, Expr.names, Expr.wire, List.mem_append, List.mem_singleton] at hm
    rcases hm with (rfl | rfl) | rfl
    · exact h.wire_mem_settled (henable enable rfl) title
    · exact h.wire_mem_settled hdata title
    · apply List.mem_append_left
      apply List.mem_append_right
      exact mem_names_declarations.2 ⟨c, hc, .inl ⟨0, by rw [hcell]; exact Nat.one_pos, rfl⟩⟩

private theorem mem_binds_portWords {id : Index} {ports : List MemoryPort} {k : Nat}
    (hk : k < ports.length) :
    .address id k ∈ (ports.mapIdx (Component.portWords d id)).flatten.flatMap Statement.binds ∧
      .data id k ∈ (ports.mapIdx (Component.portWords d id)).flatten.flatMap Statement.binds := by
  have hport := List.getElem?_eq_getElem hk
  constructor
  · exact List.mem_flatMap.2 ⟨_, mem_flatten_mapIdx.2 ⟨k, _, hport, .head _⟩, .head _⟩
  · exact List.mem_flatMap.2 ⟨_, mem_flatten_mapIdx.2 ⟨k, _, hport, .tail _ (.head _)⟩, .head _⟩

/-- The statements that compute the next state of a memory are scoped: the words of all ports are
bound before any port writes or reads. -/
theorem scoped_next_memory [Machine] (h : n.Compiled d exit s) (title : Text)
    (hc : c ∈ s.sequential)
    {shape : MemoryShape} {ports : List MemoryPort} (hcell : c.cell = .memory shape ports) :
    ScopedFrom ((s.procedure d title n.outputs exit).scope
      (s.procedure d title n.outputs exit).settle) (c.next d) := by
  obtain ⟨i, hi, -, -, -, hports⟩ := h.exists_ports hc hcell
  have hstorage := List.mem_append_left
    ((s.procedure d title n.outputs exit).settle.flatMap Statement.binds)
    (storage_mem hc hcell d title n.outputs exit)
  rw [Component.next, hcell]
  dsimp only
  rw [scopedFrom_append, scopedFrom_append, List.flatMap_append]
  refine ⟨⟨scopedFrom_of_reads ?_, scopedFrom_of_reads ?_⟩, scopedFrom_of_reads ?_⟩
  · intro st hst m hm
    obtain ⟨k, port, hport, hst⟩ := mem_flatten_mapIdx.1 hst
    obtain ⟨-, hport⟩ := hports k port hport
    rcases List.mem_pair.1 hst with rfl | rfl
    · obtain ⟨w, hw, rfl⟩ := Expr.mem_names_word.1 hm
      exact h.wire_mem_settled (h.isWire_of_bus hi hport.address w hw) title
    · obtain ⟨w, hw, rfl⟩ := Expr.mem_names_word.1 hm
      exact h.wire_mem_settled (h.isWire_of_bus hi hport.data w hw) title
  · intro st hst m hm
    obtain ⟨k, hk, rfl⟩ := List.mem_mapIdx.1 hst
    obtain ⟨-, hport⟩ := hports k _ (List.getElem?_eq_getElem hk)
    obtain ⟨haddress, hdata⟩ := mem_binds_portWords (d := d) hk
    simp only [Component.portWrite, Statement.reads, List.mem_cons, List.not_mem_nil,
      or_false] at hm
    rcases hm with rfl | rfl | rfl | rfl
    · exact List.mem_append_left _
        (h.wire_mem_settled (h.isWire_of_mem_inputs hi hport.enable) title)
    · exact List.mem_append_left _ hstorage
    · exact List.mem_append_right _ haddress
    · exact List.mem_append_right _ hdata
  · intro st hst m hm
    obtain ⟨k, hk, rfl⟩ := List.mem_mapIdx.1 hst
    rcases List.mem_pair.1 hm with rfl | rfl
    · exact List.mem_append_left _ hstorage
    · apply List.mem_append_right
      exact List.mem_append_left _ (mem_binds_portWords hk).1

private theorem scoped_next [Machine] (h : n.Compiled d exit s) (title : Text)
    (hc : c ∈ s.sequential) :
    ScopedFrom ((s.procedure d title n.outputs exit).scope
      (s.procedure d title n.outputs exit).settle) (c.next d) := by
  cases hcell : c.cell with
  | register init enable data => exact h.scoped_next_register title hc hcell
  | memory shape ports => exact h.scoped_next_memory title hc hcell
  | _ =>
    have hseq := (mem_sequential.1 hc).2
    rw [hcell] at hseq
    cases hseq

/-- What is committed was bound before in the same turn. -/
theorem mem_binds_next (hc : c ∈ s.sequential) (hst : st ∈ c.commit) {m : Name}
    (hm : m ∈ st.reads) (d : Dialect) :
    m ∈ (s.sequential.flatMap (Component.next d)).flatMap Statement.binds := by
  have hbound : ∀ m ∈ (c.next d).flatMap Statement.binds,
      m ∈ (s.sequential.flatMap (Component.next d)).flatMap Statement.binds := by
    intro m hm
    rw [List.flatMap_assoc]
    exact List.mem_flatMap.2 ⟨c, hc, hm⟩
  apply hbound
  rw [Component.commit] at hst
  cases hcell : c.cell with
  | register init enable data =>
    rw [hcell, List.mem_singleton] at hst
    rw [hst] at hm
    rw [Component.binds_next_register hcell]
    exact hm
  | memory shape ports =>
    rw [hcell] at hst
    obtain ⟨k, port, hport, hst⟩ := mem_flatten_mapIdx.1 hst
    obtain ⟨b, hb, rfl⟩ := List.mem_mapIdx.1 hst
    have hread : m ∈ (Expr.name (.read c.id k)).names := Expr.names_bit _ b ▸ hm
    rw [List.mem_singleton.1 hread]
    exact (Component.mem_binds_next_memory hcell).2
      ⟨k, (List.getElem?_eq_some_iff.1 hport).1, .inr (.inr rfl)⟩
  | _ =>
    rw [hcell] at hst
    cases hst

/-- The statements of a turn are scoped, in order. -/
theorem scoped_body [Machine] (h : n.Compiled d exit s) (title : Text) :
    ScopedFrom (s.procedure d title n.outputs exit).lasting
      (s.procedure d title n.outputs exit).body := by
  rw [Procedure.body, scopedFrom_append, scopedFrom_append, List.flatMap_append]
  refine ⟨⟨h.scoped_settle title, scopedFrom_flatMap fun before c after hsplit => ?_⟩,
    scopedFrom_of_reads fun st hst m hm => ?_⟩
  · refine (h.scoped_next title (c := c) ?_).mono fun m hm => List.mem_append_left _ hm
    rw [hsplit]
    simp
  · obtain ⟨c, hc, hst⟩ := List.mem_flatMap.1 hst
    apply List.mem_append_right
    apply List.mem_append_right
    exact mem_binds_next hc hst hm d

/-- What a statement changes was declared before the loop. -/
theorem changes_mem [Machine] (h : n.Compiled d exit s) {title : Text}
    (hst : st ∈ (s.procedure d title n.outputs exit).body) {m : Name} (hm : m ∈ st.changes) :
    m ∈ (s.procedure d title n.outputs exit).lasting := by
  have hdeclared : ∀ c ∈ s.sequential, ∀ k < c.cell.outputCount,
      .wire (c.wire k) ∈ (s.procedure d title n.outputs exit).lasting := by
    intro c hc k hk
    apply List.mem_append_right
    exact mem_names_declarations.2 ⟨c, hc, .inl ⟨k, hk, rfl⟩⟩
  cases h.emitted hst with
  | settle hc hsettle =>
    obtain ⟨st', hst', -, hchanges, -⟩ :=
      Component.exists_settle_eq (h.mem_combinational.1 hc).2
    rw [hsettle, List.singleton_inj] at hst'
    rw [hst', hchanges] at hm
    cases hm
  | write hc hcell k =>
    rw [List.mem_singleton.1 hm]
    exact storage_mem hc hcell d title n.outputs exit
  | @commit c hc hregister =>
    rw [List.mem_singleton.1 hm]
    apply hdeclared c hc
    cases hcell : c.cell with
    | register => exact Nat.one_pos
    | _ =>
      rw [hcell] at hregister
      cases hregister
  | @pick c hc shape ports hcell k b hk hb =>
    rw [List.mem_singleton.1 hm]
    apply hdeclared c hc
    have hle : (k + 1) * shape.dataWidth ≤ shape.portCount * shape.dataWidth :=
      Nat.mul_le_mul_right _ hk
    rw [Nat.succ_mul] at hle
    rw [hcell, Cell.outputCount, MemoryShape.outputCount]
    omega
  | _ => cases hm

/-- A compiled procedure is well scoped. -/
theorem isScoped [Machine] (h : n.Compiled d exit s) (title : Text) :
    (s.procedure d title n.outputs exit).IsScoped := by
  constructor
  · refine (h.nodup_declared title).map_on fun a ha b hb htext => ?_
    exact Name.text_inj (h.isProper_of_mem_declared ha) (h.isProper_of_mem_declared hb) htext
  · intro before st after hsplit
    exact (h.scoped_body title).reads hsplit
  · exact fun st hst m hm => h.changes_mem hst hm
  · intro m hm
    rcases List.mem_cons.1 hm with rfl | hm
    · obtain ⟨o, ho, rfl⟩ := h.exit
      exact h.wire_mem_settled (h.output_hasWire ho) title
    · have hbus : n.outputs.map (fun o => Expr.wire o.2) = (n.outputs.map Prod.snd).map .wire := by
        rw [List.map_map]
        rfl
      change m ∈ (Expr.packed d (n.outputs.map fun o => Expr.wire o.2)).names at hm
      rw [hbus] at hm
      obtain ⟨w, hw, rfl⟩ := Expr.mem_names_packed.1 hm
      obtain ⟨o, ho, rfl⟩ := List.mem_map.1 hw
      exact h.wire_mem_settled (h.output_hasWire ho) title

end Netlist.Compiled

namespace Netlist

/-- A loaded netlist is compiled to a well scoped procedure, in either dialect: all names that it
introduces are spelled differently, every statement of a turn reads only names that are there before
the loop or that a statement before it has bound, it changes only names from before the loop, and
the exit flag and the outputs are there once the wires have settled. -/
theorem compile_isScoped [Machine] (n : Netlist) (hn : n.IsLoaded) (d : Dialect) (name done : Value)
    (p : Procedure) (hp : n.compile d name done = .ok p) : p.IsScoped := by
  obtain ⟨s, exit, title, -, h, rfl⟩ := compile_ok hp hn.isNumbered
  exact h.isScoped title

/-- An input, a register that is enabled by it, and a memory that is addressed by the register. -/
def latch : Netlist :=
  withFlag
    [⟨.number 0, "name", [("name", "w")], [], .number 1⟩,
      ⟨.number 1, "delayEn", [("init", "0")],
        [⟨.number 0, .number 0⟩, ⟨.number 0, .number 0⟩, ⟨.number 2, .number 0⟩], .number 1⟩,
      ⟨.number 2, "ram", [("dwidth", "1"), ("awidth", "1")],
        [⟨.number 0, .number 0⟩, ⟨.number 2, .number 0⟩, ⟨.number 1, .number 0⟩], .number 1⟩]
    ⟨.number 2, .number 0⟩ (by decide)

theorem isLoaded_latch : latch.IsLoaded := .inl ⟨latch.toValue, by cbv⟩

open Desktop in
theorem schedule_latch : latch.schedule = .ok
    ⟨[⟨.number 0, .name, .input "w"⟩,
        ⟨.number 1, .delayEn,
          .register false (some ⟨.number 0, .number 0⟩) ⟨.number 2, .number 0⟩⟩,
        ⟨.number 2, .ram, .memory ⟨1, 1, [], false, by decide, by decide, by decide⟩
          [⟨⟨.number 0, .number 0⟩, [⟨.number 2, .number 0⟩], [⟨.number 1, .number 0⟩],
            [⟨.number 2, .number 0⟩]⟩]⟩],
      [⟨.number 0, .name, .input "w"⟩]⟩ := by
  cbv

open Desktop in
/-- The names of a small procedure, in the order in which they are introduced. -/
theorem latch_isScoped :
    latch.IsLoaded ∧ ∃ p, latch.compile .c (.text "top") (.text "done") = .ok p ∧
      p.declared.map Name.text =
        ["w", "w1", "w2", "m2", "w0", "w1_", "m2_a0", "m2_d0", "m2_q0"].map Text.ofString ∧
      p.IsScoped := by
  obtain ⟨p, hp, hnames⟩ : ∃ p, latch.compile .c (.text "top") (.text "done") = .ok p ∧
      p.declared.map Name.text =
        ["w", "w1", "w2", "m2", "w0", "w1_", "m2_a0", "m2_d0", "m2_q0"].map Text.ofString :=
    ⟨_, by rw [compile, schedule_latch]; rfl, rfl⟩
  exact ⟨isLoaded_latch, p, hp, hnames, compile_isScoped latch isLoaded_latch .c _ _ p hp⟩

end Netlist

end Latchwork
