import Latchwork.Proofs.FixedWidth

/-!
# Widths that the types of C hold

A procedure in C fits its types if all initial words are below the limit of `unsigned long long` and
no count of a shift reaches the width of the shifted operand. Compilation limits the number of
outputs, but not the widths of memories: a procedure fits its types exactly if no memory has data or
addresses of more than 64 bits.
-/

namespace Latchwork

open Outcome

/-! ### Shifts -/

namespace Expr

/-- The shifts in an expression: what is shifted, and by how much. -/
def shifts : Expr → List (Expr × Nat)
  | .shiftLeft e count => (e, count) :: e.shifts
  | .shiftRight e count => (e, count) :: e.shifts
  | .widen e => e.shifts
  | .binary _ a b => a.shifts ++ b.shifts
  | .choose condition a b => condition.shifts ++ (a.shifts ++ b.shifts)
  | _ => []

/-- No count of a shift reaches the width of the shifted operand. -/
def ShiftsFit (e : Expr) : Prop := ∀ x ∈ e.shifts, x.2 < x.1.type.width

/-- Wires are not shifted. -/
theorem shifts_wire (w : Wire) : (wire w).shifts = [] := rfl

private theorem shiftsFit_binary {op : Operator} {a b : Expr} :
    (Expr.binary op a b).ShiftsFit ↔ a.ShiftsFit ∧ b.ShiftsFit := by
  simp only [ShiftsFit, shifts, List.mem_append]
  constructor
  · intro h
    exact ⟨fun x hx => h x (.inl hx), fun x hx => h x (.inr hx)⟩
  · rintro ⟨ha, hb⟩ x (hx | hx)
    · exact ha x hx
    · exact hb x hx

/-- Joined terms fit if each of them does. -/
theorem shiftsFit_joined {op : Operator} {terms : List Expr} :
    (joined op terms).ShiftsFit ↔ ∀ e ∈ terms, e.ShiftsFit := by
  induction terms using List.reverseRecOn with
  | nil => simp [joined, ShiftsFit, shifts]
  | append_singleton terms e ih =>
    rw [joined_concat]
    split
    · next hnil => simp [hnil]
    · rw [shiftsFit_binary, ih]
      simp only [List.mem_append, List.mem_singleton]
      constructor
      · rintro ⟨hterms, he⟩ e' (he' | rfl)
        · exact hterms e' he'
        · exact he
      · intro h
        exact ⟨fun e' he' => h e' (.inl he'), h e (.inr rfl)⟩

private theorem shiftsFit_shifted {k : Nat} {w : Wire} :
    (shifted .c k (wire w)).ShiftsFit ↔ k < 64 := by
  by_cases hzero : k = 0
  · have hshifted : shifted .c k (wire w) = wire w := if_pos hzero
    rw [hshifted, hzero]
    simp [ShiftsFit, shifts_wire]
  by_cases hwide : 31 ≤ k
  · have hshifted : shifted .c k (wire w) = .shiftLeft (.widen (wire w)) k := by
      simp [shifted, hzero, hwide]
    rw [hshifted]
    simp [ShiftsFit, shifts, shifts_wire, type, IntType.width]
  · have hshifted : shifted .c k (wire w) = .shiftLeft (wire w) k := by
      simp [shifted, hzero, hwide]
    have hsmall : k < 32 ∧ k < 64 := by omega
    rw [hshifted]
    simp [ShiftsFit, shifts, wire, type, Name.type, IntType.width, hsmall]

/-- A word on a bus fits if the bus has at most as many wires as a word has bits. -/
theorem shiftsFit_word {bus : List Wire} :
    (word .c (bus.map wire)).ShiftsFit ↔ bus.length ≤ 64 := by
  rw [word, shiftsFit_joined]
  constructor
  · intro h
    by_contra hlong
    have hlt : 64 < bus.length := by omega
    have hmem : shifted .c 64 (wire (bus.get ⟨64, hlt⟩)) ∈ (bus.map wire).mapIdx (shifted .c) :=
      List.mem_mapIdx.2 ⟨64, by simpa using hlt, by simp⟩
    have hcount := shiftsFit_shifted.1 (h _ hmem)
    omega
  · intro hlength e he
    obtain ⟨k, hk, rfl⟩ := List.mem_mapIdx.1 he
    rw [List.getElem_map]
    rw [List.length_map] at hk
    exact shiftsFit_shifted.2 (by omega)

private theorem shiftsFit_packed (bus : List Wire) : (packed .c (bus.map wire)).ShiftsFit := by
  rw [packed, shiftsFit_joined]
  intro e he
  obtain ⟨k, hk, rfl⟩ := List.mem_mapIdx.1 he
  rw [List.getElem_map]
  split
  · simp [ShiftsFit, shifts_wire]
  · rw [scaled, shiftsFit_binary]
    refine ⟨?_, by simp [ShiftsFit, shifts_wire]⟩
    split <;> simp [ShiftsFit, shifts]

private theorem shiftsFit_bit {id : Index} {k index : Nat} :
    (bit (.name (.read id k)) index).ShiftsFit ↔ index < 64 := by
  rw [bit, shiftsFit_binary]
  by_cases hzero : index = 0
  · simp [hzero, ShiftsFit, shifts]
  · simp [hzero, ShiftsFit, shifts, type, Name.type, IntType.width]

end Expr

/-- The expression of a statement, if it has one, has no shift past a width. -/
def Statement.ShiftsFit (st : Statement) : Prop :=
  ∀ e, Procedure.expressionOf? st = some e → e.ShiftsFit

/-- No statement of a procedure has a shift past a width. -/
def Procedure.StatementsFit (p : Procedure) : Prop :=
  ∀ st ∈ p.settle ++ p.next ++ p.commit, st.ShiftsFit

/-- All initial words and all shifts of a procedure are within the types of C. -/
structure Procedure.FitsTypes (p : Procedure) : Prop where
  words : ∀ m shape, .storage m shape ∈ p.declarations →
    ∀ value ∈ (Dialect.C.ArrayDeclaration.ofShape shape).values, value < 2 ^ 64
  statements : p.StatementsFit
  result : p.result.ShiftsFit

/-! ### Components -/

namespace Component

private theorem shiftsFit_settle {c : Component} {st : Statement} (h : st ∈ c.settle) :
    st.ShiftsFit := by
  intro e he
  unfold settle at h
  split at h <;> simp only [List.mem_singleton, List.not_mem_nil] at h
  all_goals
    subst h
    cases he
    simp [Expr.ShiftsFit, Expr.shifts, Expr.shifts_wire]

private theorem shiftsFit_register {c : Component} {init : Bool} {enable : Option Wire}
    {data : Wire} (hcell : c.cell = .register init enable data) {st : Statement}
    (h : st ∈ c.next .c ++ c.commit) : st.ShiftsFit := by
  intro e he
  unfold next commit at h
  rw [hcell] at h
  cases enable with
  | none =>
    simp only [List.cons_append, List.nil_append, List.mem_cons, List.not_mem_nil, or_false] at h
    obtain rfl | rfl := h <;> cases he <;> simp [Expr.ShiftsFit, Expr.shifts, Expr.shifts_wire]
  | some enable =>
    simp only [List.cons_append, List.nil_append, List.mem_cons, List.not_mem_nil, or_false] at h
    obtain rfl | rfl := h <;> cases he <;> simp [Expr.ShiftsFit, Expr.shifts, Expr.shifts_wire]

private theorem shiftsFit_portWords {id : Index} {k : Nat} {port : MemoryPort} :
    (∀ st ∈ portWords .c id k port, st.ShiftsFit) ↔
      port.address.length ≤ 64 ∧ port.data.length ≤ 64 := by
  simp only [portWords, List.mem_cons, List.not_mem_nil, or_false, forall_eq_or_imp, forall_eq,
    Statement.ShiftsFit, Procedure.expressionOf?, Option.some.injEq, forall_eq',
    Expr.shiftsFit_word]

private theorem shiftsFit_portCommit {id : Index} {k : Nat} {port : MemoryPort}
    (hlength : port.output.length ≤ 64) {st : Statement} (h : st ∈ portCommit id k port) :
    st.ShiftsFit := by
  obtain ⟨b, hb, rfl⟩ := List.mem_mapIdx.1 h
  intro e he
  cases he
  exact Expr.shiftsFit_bit.2 (by omega)

/-- The statements of a memory fit exactly if its data and addresses do. -/
theorem shiftsFit_memory [Machine] {i : Instance} {c : Component} {shape : MemoryShape}
    {ports : List MemoryPort} (hic : ofInstance i = .ok c) (hcell : c.cell = .memory shape ports) :
    (∀ st ∈ c.next .c ++ c.commit, st.ShiftsFit) ↔
      shape.dataWidth ≤ 64 ∧ shape.addressWidth ≤ 64 := by
  have hfor := (ofInstance_ok hic).2.2.1
  rw [hcell] at hfor
  obtain ⟨-, -, hlength, rfl⟩ := hfor.of_memory
  unfold next commit
  rw [hcell]
  constructor
  · -- the first port has a word of each kind
    intro h
    have hpos : 0 < (shape.splitPorts i).length := by
      rw [MemoryShape.length_splitPorts hlength, MemoryShape.portCount]
      split <;> decide
    have hport := List.getElem?_eq_getElem hpos
    obtain ⟨-, hisPort⟩ := MemoryShape.isPort_of_getElem? hlength hport
    have hfit : ∀ st ∈ portWords .c c.id 0 ((shape.splitPorts i).get ⟨0, hpos⟩),
        st.ShiftsFit := by
      intro st hst
      refine h st ?_
      simp only [List.mem_append]
      exact .inl (.inl (.inl (mem_flatten_mapIdx.2 ⟨0, _, hport, hst⟩)))
    obtain ⟨haddress, hdata⟩ := shiftsFit_portWords.1 hfit
    exact ⟨hisPort.length_data ▸ hdata, hisPort.length_address ▸ haddress⟩
  · rintro ⟨hdata, haddress⟩ st hst
    simp only [List.mem_append] at hst
    obtain ((hst | hst) | hst) | hst := hst
    · obtain ⟨k, port, hport, hst⟩ := mem_flatten_mapIdx.1 hst
      obtain ⟨-, hisPort⟩ := MemoryShape.isPort_of_getElem? hlength hport
      refine shiftsFit_portWords.2 ⟨?_, ?_⟩ st hst
      · rwa [hisPort.length_address]
      · rwa [hisPort.length_data]
    · obtain ⟨k, hk, rfl⟩ := List.mem_mapIdx.1 hst
      intro e he
      cases he
    · obtain ⟨k, hk, rfl⟩ := List.mem_mapIdx.1 hst
      intro e he
      cases he
      simp [Expr.ShiftsFit, Expr.shifts]
    · obtain ⟨k, port, hport, hst⟩ := mem_flatten_mapIdx.1 hst
      obtain ⟨-, hisPort⟩ := MemoryShape.isPort_of_getElem? hlength hport
      refine shiftsFit_portCommit ?_ hst
      rwa [hisPort.length_output]

/-- The statements that step an instance fit exactly if it is no memory with wider data or wider
addresses. -/
theorem shiftsFit_step [Machine] {i : Instance} {c : Component} (hic : ofInstance i = .ok c) :
    (∀ st ∈ c.next .c ++ c.commit, st.ShiftsFit) ↔
      ∀ shape, MemoryShape.ofInstance i = .ok shape →
        shape.dataWidth ≤ 64 ∧ shape.addressWidth ≤ 64 := by
  have hfor := (ofInstance_ok hic).2.2.1
  cases hcell : c.cell with
  | memory shape ports =>
    rw [hcell] at hfor
    rw [shiftsFit_memory hic hcell, hfor.of_memory.2.1]
    simp
  | register init enable data =>
    refine iff_of_true (fun st hst => shiftsFit_register hcell hst) fun shape hshape => ?_
    obtain ⟨ports, hmemory⟩ := exists_memory hic hshape
    cases hcell.symm.trans hmemory
  | _ =>
    refine iff_of_true (fun st hst => ?_) fun shape hshape => ?_
    · simp [next, commit, hcell] at hst
    · obtain ⟨ports, hmemory⟩ := exists_memory hic hshape
      cases hcell.symm.trans hmemory

end Component

/-! ### Netlists -/

private theorem Schedule.shiftsFit_procedure {s : Schedule} {title : Text}
    {outputs : List (Text × Wire)} {exit : Wire} :
    (s.procedure .c title outputs exit).StatementsFit ↔
      ∀ c ∈ s.sequential, ∀ st ∈ c.next .c ++ c.commit, st.ShiftsFit := by
  simp only [Procedure.StatementsFit, procedure, List.mem_append, List.mem_flatMap]
  constructor
  · rintro h c hc st (hst | hst)
    · exact h st (.inl (.inr ⟨c, hc, hst⟩))
    · exact h st (.inr ⟨c, hc, hst⟩)
  · rintro h st ((⟨c, -, hst⟩ | ⟨c, hc, hst⟩) | ⟨c, hc, hst⟩)
    · exact Component.shiftsFit_settle hst
    · exact h c hc st (.inl hst)
    · exact h c hc st (.inr hst)

namespace Netlist

/-- What is compiled to C fits its types exactly if all memories have data and addresses of up to 64
bits. Outputs are counted, so that their sum always fits; the widths of memories are not checked. -/
theorem compile_fitsTypes_iff [Machine] (n : Netlist) (name done : Value) (p : Procedure)
    (h : n.compile .c name done = .ok p) :
    n.outputs.length ≤ outputLimit ∧
      (p.FitsTypes ↔ ∀ i ∈ n.instances, ∀ shape, MemoryShape.ofInstance i = .ok shape →
        shape.dataWidth ≤ 64 ∧ shape.addressWidth ≤ 64) := by
  obtain ⟨s, exit, title, hs, -, -, hlimit, -, rfl⟩ := compile_eq_ok h
  have hcs := (schedule_ok hs).2.1
  refine ⟨hlimit rfl, fun hfits i hi shape hshape => ?_, fun hwidths => ⟨?_, ?_, ?_⟩⟩
  · obtain ⟨c, hc, hic⟩ := exists_result hcs hi
    obtain ⟨ports, hcell⟩ := Component.exists_memory hic hshape
    have hseq : c ∈ s.sequential := Compiled.mem_sequential.2 ⟨hc, by rw [hcell]; rfl⟩
    have hstep := Schedule.shiftsFit_procedure.1 hfits.statements c hseq
    exact (Component.shiftsFit_step hic).1 hstep shape hshape
  · intro m shape hm value hvalue
    obtain ⟨i, hi, hshape⟩ := exists_shape hs hm
    have hwidth := (hwidths i hi shape hshape).1
    exact (shape.init_lt value hvalue).trans_le (Nat.pow_le_pow_right (by decide) hwidth)
  · refine Schedule.shiftsFit_procedure.2 fun c hc => ?_
    obtain ⟨i, hi, hic⟩ := exists_element hcs (Compiled.mem_sequential.1 hc).1
    exact (Component.shiftsFit_step hic).2 (hwidths i hi)
  · have hresult := Expr.shiftsFit_packed (n.outputs.map Prod.snd)
    rwa [List.map_map] at hresult

/-- A memory of one word of the given width, whose highest bit is set from the start. -/
def oneWord (width : Nat) : Netlist :=
  withFlag
    [⟨.number 0, "high", [], [], .number 1⟩,
      ⟨.number 1, "ram",
        [("dwidth", Numeral.decimal width), ("awidth", "0"),
          ("init", "[" ++ Numeral.decimal (2 ^ (width - 1)) ++ "]")],
        List.replicate (width + 1) ⟨.number 0, .number 0⟩, .number width⟩]
    ⟨.number 0, .number 0⟩ (by simp [Index.value])

/-- The component of a memory of one word. -/
def oneWordMemory (shape : MemoryShape) : Component :=
  ⟨.number 1, .ram, .memory shape
    [⟨⟨.number 0, .number 0⟩, List.replicate shape.dataWidth ⟨.number 0, .number 0⟩, [],
      (List.range shape.dataWidth).map fun k => ⟨.number 1, .number k⟩⟩]⟩

open Desktop in
/-- A word of 64 bits fits. -/
theorem oneWord_fitsTypes :
    ∃ p, (oneWord 64).compile .c (.text "top") (.text "done") = .ok p ∧
      (∀ i ∈ (oneWord 64).instances, ∀ shape, MemoryShape.ofInstance i = .ok shape →
        shape.dataWidth ≤ 64 ∧ shape.addressWidth ≤ 64) ∧ p.FitsTypes := by
  have hschedule : (oneWord 64).schedule = .ok
      ⟨[⟨.number 0, .high, .constant true⟩,
          oneWordMemory ⟨64, 0, [2 ^ 63], false, by decide, by decide, by decide⟩],
        [⟨.number 0, .high, .constant true⟩]⟩ := by
    cbv
  obtain ⟨p, hp⟩ : ∃ p, (oneWord 64).compile .c (.text "top") (.text "done") = .ok p :=
    ⟨_, by rw [compile, hschedule]; rfl⟩
  have hwidths : ∀ i ∈ (oneWord 64).instances, ∀ shape, MemoryShape.ofInstance i = .ok shape →
      shape.dataWidth ≤ 64 ∧ shape.addressWidth ≤ 64 := by
    intro i hi shape hshape
    obtain ⟨c, hc, hic⟩ := exists_result (schedule_ok hschedule).2.1 hi
    obtain ⟨ports, hcell⟩ := Component.exists_memory hic hshape
    simp only [List.mem_cons, List.not_mem_nil, or_false] at hc
    rcases hc with rfl | rfl <;> cases hcell
    decide
  exact ⟨p, hp, hwidths, (compile_fitsTypes_iff _ _ _ p hp).2.2 hwidths⟩

open Desktop in
/-- A word of 65 bits is compiled all the same, with an initial value that the array cannot hold and
a shift by the whole width of a word. -/
theorem oneWord_exceeds :
    (oneWord 65).IsLoaded ∧ ∃ p, (oneWord 65).compile .c (.text "top") (.text "done") = .ok p ∧
      (∃ m shape, .storage m shape ∈ p.declarations ∧
        2 ^ 64 ∈ (Dialect.C.ArrayDeclaration.ofShape shape).values) ∧
      ∃ st ∈ p.next, ¬st.ShiftsFit := by
  have hschedule : (oneWord 65).schedule = .ok
      ⟨[⟨.number 0, .high, .constant true⟩,
          oneWordMemory ⟨65, 0, [2 ^ 64], false, by decide, by decide, by decide⟩],
        [⟨.number 0, .high, .constant true⟩]⟩ := by
    cbv
  refine ⟨.inl ⟨(oneWord 65).toValue, by cbv⟩, _, by rw [compile, hschedule]; rfl,
    ⟨_, _, .tail _ (.head _), .head _⟩, _, .tail _ (.head _), fun hfit => ?_⟩
  have hlength := Expr.shiftsFit_word.1 (hfit _ rfl)
  rw [List.length_replicate] at hlength
  exact absurd hlength (by decide)

end Netlist

end Latchwork
