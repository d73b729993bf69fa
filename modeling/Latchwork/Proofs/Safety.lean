import Latchwork.Proofs.Scope
import Latchwork.Proofs.Unbounded

/-!
# Compiled procedures are safe

What the names of a running procedure may stand for: wires and next values for bits, the words of a
memory port for numbers of its widths, and storages for tables with a word of the data width at
every address. Each statement of a turn keeps to that if what it reads does, and it cannot fail: an
address is always below the size of the table that it is used on. Since statements read only what is
there, this holds after any number of turns and in the midst of each.
-/

namespace Latchwork

open Outcome

/-! ### What names may stand for -/

/-- The instance with this id is a memory of this shape. -/
def Netlist.HasMemory [Machine] (n : Netlist) (id : Index) (shape : MemoryShape) : Prop :=
  ∃ i ∈ n.instances, i.id = id ∧ MemoryShape.ofInstance i = .ok shape

/-- A table of exactly one word for each address, none of which is too wide. -/
def MemoryShape.IsTable (shape : MemoryShape) (c : Content) : Prop :=
  ∃ words cells, shape.Holds words ∧ c = .table words.length cells ∧
    ∀ k, cells.getD k (.number 0) = .ofWord (words.getD k 0)

/-- The contents that a name may stand for. -/
def Name.Admits [Machine] (n : Netlist) : Name → Content → Prop
  | .given _, c => ∃ z, c = .number z
  | .wire _, c => ∃ b, c = .ofBit b
  | .next _, c => ∃ b, c = .ofBit b
  | .storage id, c => ∃ shape, n.HasMemory id shape ∧ shape.IsTable c
  | .address id _, c =>
    ∃ shape, n.HasMemory id shape ∧ ∃ address < 2 ^ shape.addressWidth, c = .ofWord address
  | .data id _, c => ∃ shape, n.HasMemory id shape ∧ ∃ word < 2 ^ shape.dataWidth, c = .ofWord word
  | .read id _, c => ∃ shape, n.HasMemory id shape ∧ ∃ word < 2 ^ shape.dataWidth, c = .ofWord word

/-- The accesses to storages in an expression: which storage, and at which address. -/
def Expr.accesses : Expr → List (Name × Name)
  | .name _ => []
  | .literal _ => []
  | .wideLiteral _ => []
  | .widen e => e.accesses
  | .binary _ a b => a.accesses ++ b.accesses
  | .shiftLeft e _ => e.accesses
  | .shiftRight e _ => e.accesses
  | .choose condition whenSet whenClear =>
    condition.accesses ++ whenSet.accesses ++ whenClear.accesses
  | .element storage address => [(storage, address)]

/-- The accesses to storages in a statement. -/
def Statement.accesses : Statement → List (Name × Name)
  | .bind _ value _ => value.accesses
  | .bindWord _ value => value.accesses
  | .assign _ value => value.accesses
  | .store _ storage address _ => [(storage, address)]

namespace Store

/-- What was set for a name, if anything was. -/
def find? (t : Store) (m : Name) : Option Content := t.contents[m.text]?

/-- Does the storage have a word at the address? -/
def InRange (t : Store) (access : Name × Name) : Prop :=
  ∃ size cells address, t.find? access.1 = some (.table size cells) ∧
    t.find? access.2 = some (.ofWord address) ∧ address < size

end Store

/-- A store in the midst of a turn, after some of its statements: every name that is in scope has
been set, everything that was set is what its name admits, and the statement that comes next uses
storages within their range only. -/
structure Procedure.SafeAt [Machine] (p : Procedure) (n : Netlist) (before : List Statement)
    (t : Store) :
    Prop where
  bound : ∀ m ∈ p.scope before, ∃ c, t.find? m = some c
  admitted : ∀ m ∈ p.declared, ∀ c, t.find? m = some c → m.Admits n c
  inRange : ∀ st after, p.body = before ++ st :: after → ∀ a ∈ st.accesses, t.InRange a

/-! ### Stores -/

namespace Store

variable {t : Store} {m : Name} {c : Content}

private theorem get_of_find? (h : t.find? m = some c) : t.get m = .ok c := by
  rw [find?] at h
  rw [get, h]

private theorem find?_set_self (t : Store) (m : Name) (c : Content) :
    (t.set m c).find? m = some c := by
  simp [find?, set]

private theorem find?_set_of_ne {m' : Name} (h : m'.text ≠ m.text) :
    (t.set m c).find? m' = t.find? m' := by
  have hne : ¬m.text = m'.text := fun heq => h heq.symm
  simp [find?, set, Std.HashMap.getElem?_insert, hne]

/-- A store in which the names of a scope are set, and everything is what its name admits. -/
structure IsSafe [Machine] (t : Store) (n : Netlist) (scope : List Name) : Prop where
  bound : ∀ m ∈ scope, ∃ c, t.find? m = some c
  admitted : ∀ m : Name, m.IsProper → ∀ c, t.find? m = some c → m.Admits n c

variable {n : Netlist} {scope : List Name}

private theorem isSafe_empty [Machine] (n : Netlist) (title : Text) : (⟨title, ∅⟩ : Store).IsSafe n
    [] := by
  constructor
  · simp
  · intro m _ c hc
    simp [find?] at hc

private theorem IsSafe.mono [Machine] {scope' : List Name} (h : t.IsSafe n scope)
    (hsub : ∀ m ∈ scope', m ∈ scope) :
    t.IsSafe n scope' :=
  ⟨fun m hm => h.bound m (hsub m hm), h.admitted⟩

/-- Setting a name to what it admits keeps a store safe. -/
theorem IsSafe.set [Machine] (h : t.IsSafe n scope) (hm : m.IsProper) (hc : m.Admits n c) :
    (t.set m c).IsSafe n (scope ++ [m]) := by
  constructor
  · intro m' hm'
    by_cases htext : m'.text = m.text
    · refine ⟨c, ?_⟩
      rw [find?, htext, ← find?, find?_set_self]
    · rw [find?_set_of_ne htext]
      rcases List.mem_append.1 hm' with hm' | hm'
      · exact h.bound m' hm'
      · exact absurd (congrArg Name.text (List.mem_singleton.1 hm')) htext
  · intro m' hm' c' hc'
    by_cases htext : m'.text = m.text
    · rw [Name.text_inj hm' hm htext, find?_set_self] at hc'
      rw [Name.text_inj hm' hm htext, ← Option.some.inj hc']
      exact hc
    · rw [find?_set_of_ne htext] at hc'
      exact h.admitted m' hm' c' hc'

/-- The bit that was set for a wire. -/
def bit (t : Store) (w : Wire) : Bool :=
  match t.find? (.wire w) with
  | some (.number z) => z == 1
  | _ => false

/-- The bits that were set for the numbered wires. -/
def valuation (t : Store) : Valuation := fun id port => t.bit ⟨.number id, .number port⟩

/-- The number that was given for an input. -/
def argument (t : Store) (name : Text) : Int :=
  match t.find? (.given name) with
  | some (.number z) => z
  | _ => 0

private theorem bit_eq {w : Wire} {b : Bool} (h : t.find? (.wire w) = some (.ofBit b)) :
    t.bit w = b := by
  rw [bit, h]
  cases b <;> rfl

private theorem at_valuation {w : Wire} (hw : w.IsNumbered) : t.valuation.at w = t.bit w := by
  have heq : (⟨.number w.driver.value, .number w.port.value⟩ : Wire) = w :=
    Wire.IsNumbered.eq ⟨rfl, rfl⟩ hw rfl rfl
  rw [Valuation.at, valuation, heq]

end Store

/-! ### Statements -/

namespace Statement

/-- Everything that a statement reads has been set, to what its name admits. -/
def Ready [Machine] (st : Statement) (n : Netlist) (t : Store) : Prop :=
  ∀ m ∈ st.reads, ∃ c, t.find? m = some c ∧ m.Admits n c

/-- A statement changes nothing and binds nothing, or it sets one name to what the name admits, and
binds no other. -/
def Leaves [Machine] (st : Statement) (n : Netlist) (t u : Store) : Prop :=
  (u = t ∧ st.binds = []) ∨
    ∃ m c, u = t.set m c ∧ m.IsProper ∧ m.Admits n c ∧ ∀ m' ∈ st.binds, m' = m

/-- Where a statement is ready, it stays within the range of storages, it does not fail, and it
leaves what names admit. -/
def IsSound [Machine] (st : Statement) (n : Netlist) : Prop :=
  ∀ t, st.Ready n t →
    (∀ a ∈ st.accesses, t.InRange a) ∧ ∃ u, st.run t = .ok u ∧ st.Leaves n t u

variable {st : Statement} {n : Netlist} {t : Store}

private theorem Ready.wire [Machine] (h : st.Ready n t) {w : Wire} (hw : .wire w ∈ st.reads) :
    t.get (.wire w) = .ok (.ofBit (t.bit w)) := by
  obtain ⟨c, hc, b, rfl⟩ := h _ hw
  rw [Store.bit_eq hc, Store.get_of_find? hc]

private theorem isSound_of_sets [Machine] (haccesses : st.accesses = [])
    (h : ∀ t, st.Ready n t → ∃ m c,
      st.run t = .ok (t.set m c) ∧ m.IsProper ∧ m.Admits n c ∧ ∀ m' ∈ st.binds, m' = m) :
    st.IsSound n := by
  intro t hready
  obtain ⟨m, c, hrun, hsets⟩ := h t hready
  constructor
  · rw [haccesses]
    intro a ha
    exact absurd ha List.not_mem_nil
  · exact ⟨_, hrun, .inr ⟨m, c, rfl, hsets⟩⟩

end Statement

private theorem Expr.accesses_joined {op : Operator} {terms : List Expr}
    (h : ∀ e ∈ terms, e.accesses = []) : (joined op terms).accesses = [] := by
  induction terms using List.reverseRecOn with
  | nil => rfl
  | append_singleton terms e ih =>
    have he := h e (by simp)
    rw [joined_concat]
    split
    · exact he
    · rw [accesses, he, ih fun e' he' => h e' (by simp [he'])]
      rfl

private theorem Expr.accesses_word (d : Dialect) (bus : List Wire) :
    (word d (bus.map wire)).accesses = [] := by
  apply accesses_joined
  intro e he
  obtain ⟨k, hk, rfl⟩ := List.mem_mapIdx.1 he
  rw [List.getElem_map]
  unfold shifted
  split
  · rfl
  · split <;> rfl

private theorem Expr.accesses_bit (e : Expr) (index : Nat) :
    (bit e index).accesses = e.accesses := by
  unfold bit
  split <;> exact List.append_nil _

private theorem Component.accesses_settle {c : Component} {st : Statement} (hst : c.settle = [st]) :
    st.accesses = [] := by
  unfold settle at hst
  split at hst <;> cases hst <;> rfl

namespace Netlist

variable {n : Netlist} {exit : Wire} {s : Schedule} {c : Component} {st : Statement}

private theorem HasMemory.unique [Machine] {id : Index} {shape shape' : MemoryShape}
    (h : n.HasMemory id shape) (h' : n.HasMemory id shape') : shape = shape' := by
  obtain ⟨i, hi, hid, hshape⟩ := h
  obtain ⟨j, hj, hjd, hshape'⟩ := h'
  rw [eq_of_id_eq hi hj (by rw [hid, hjd]), hshape'] at hshape
  exact (Except.ok.inj hshape).symm

namespace Compiled

private theorem hasMemory [Machine] {d : Dialect} (h : n.Compiled d exit s) (hc : c ∈ s.sequential)
    {shape : MemoryShape} {ports : List MemoryPort} (hcell : c.cell = .memory shape ports) :
    n.HasMemory c.id shape := by
  obtain ⟨i, hi, hid, hshape, -⟩ := h.exists_ports hc hcell
  exact ⟨i, hi, hid, hshape⟩

/-- The statement of a combinational component settles its wire to a bit. -/
theorem sound_settle [Machine] (h : n.Compiled .python exit s) (hc : c ∈ s.combinational)
    (hst : c.settle = [st]) : st.IsSound n := by
  refine Statement.isSound_of_sets (Component.accesses_settle hst) fun t hready => ?_
  obtain ⟨hc, hseq⟩ := h.mem_combinational.1 hc
  obtain ⟨i, hi, hic⟩ := h.exists_instance hc
  have hci : i.isCombinational = true := by rw [Instance.isCombinational_eq hic, hseq]; rfl
  obtain ⟨st', hst', hbinds, -, hreads⟩ := Component.exists_settle_eq hseq
  obtain rfl : st = st' := List.singleton_inj.1 (hst.symm.trans hst')
  have hwires : ∀ w ∈ c.cell.reads, t.get (.wire w) = .ok (.ofBit (t.valuation.at w)) := by
    intro w hw
    have hnumbered := (h.input_hasWire hi (Instance.reads_eq hic hci ▸ hw)).1
    rw [Store.at_valuation hnumbered]
    exact hready.wire ((hreads _).2 (.inl ⟨w, hw, rfl⟩))
  have hinput : ∀ name, c.cell = .input name →
      t.get (.given name) = .ok (.number (t.argument name)) := by
    intro name hname
    obtain ⟨_, hfind, z, rfl⟩ := hready _ ((hreads (.given name)).2 (.inr ⟨name, hname, rfl⟩))
    rw [Store.argument, hfind, Store.get_of_find? hfind]
  obtain ⟨⟨b, hb⟩, -⟩ := Instance.exists_drives? hic hci t.argument t.valuation
  rw [Instance.drives?_eq hic] at hb
  have hrun := settle_unbounded hwires hinput hb
  rw [hst, foldlM_singleton] at hrun
  refine ⟨_, _, hrun, h.wire_isProper hc 0, ⟨b, rfl⟩, ?_⟩
  rw [hbinds]
  simp

private theorem sound_word [Machine] (dest : Name) (hdest : dest.IsProper) {bus : List Wire}
    (hadmits : ∀ word < 2 ^ bus.length, dest.Admits n (.ofWord word)) :
    (Statement.bindWord dest (.word .python (bus.map .wire))).IsSound n := by
  refine Statement.isSound_of_sets (Expr.accesses_word _ bus) fun t hready => ?_
  have hbits : ∀ (k : Nat) (w : Wire), bus[k]? = some w →
      t.get (.wire w) = .ok (.ofBit ((bus[k]?).any t.bit)) := by
    intro k w hw
    rw [hw, Option.any_some]
    exact hready.wire (Expr.mem_names_word.2 ⟨w, List.mem_of_getElem? hw, rfl⟩)
  exact ⟨dest, _, lawful_unbounded.word trivial hbits, hdest, hadmits _ (weigh_lt _ _), by
    simp [Statement.binds]⟩

section Memories

variable {shape : MemoryShape} {ports : List MemoryPort}

private theorem exists_place [Machine] {id : Index} {k : Nat} (hmemory : n.HasMemory id shape)
    {table address : Content} (htable : (Name.storage id).Admits n table)
    (haddress : (Name.address id k).Admits n address) :
    ∃ words cells place, shape.Holds words ∧ table = .table words.length cells ∧
      (∀ k, cells.getD k (.number 0) = .ofWord (words.getD k 0)) ∧ address = .ofWord place ∧
      place < words.length := by
  obtain ⟨shape₁, hmemory₁, words, cells, hwords, htable, hcells⟩ := htable
  obtain ⟨shape₂, hmemory₂, place, hplace, haddress⟩ := haddress
  obtain rfl := hmemory₁.unique hmemory
  obtain rfl := hmemory₂.unique hmemory
  refine ⟨words, cells, place, hwords, htable, hcells, haddress, ?_⟩
  rw [hwords.length_eq]
  exact hplace

/-- A write stays within the table and leaves a table. -/
theorem sound_write [Machine] (h : n.Compiled .python exit s) (hc : c ∈ s.sequential)
    (hcell : c.cell = .memory shape ports) (k : Nat) (port : MemoryPort) :
    (Component.portWrite c.id k port).IsSound n := by
  intro t hready
  have hmemory := h.hasMemory hc hcell
  have henable := hready.wire (w := port.enable) (by simp [Component.portWrite, Statement.reads])
  obtain ⟨_, hstorage, htable⟩ :=
    hready (.storage c.id) (by simp [Component.portWrite, Statement.reads])
  obtain ⟨_, haddress, hplace⟩ :=
    hready (.address c.id k) (by simp [Component.portWrite, Statement.reads])
  obtain ⟨_, hdata, shape', hmemory', word, hword, rfl⟩ :=
    hready (.data c.id k) (by simp [Component.portWrite, Statement.reads])
  obtain rfl := hmemory'.unique hmemory
  obtain ⟨words, cells, place, hwords, rfl, hcells, rfl, hlt⟩ :=
    exists_place hmemory htable hplace
  constructor
  · intro a ha
    rw [List.mem_singleton.1 ha]
    exact ⟨_, cells, place, hstorage, haddress, hlt⟩
  · refine ⟨_, lawful_unbounded.write henable (Store.get_of_find? hdata)
      (Store.get_of_find? haddress) (Store.get_of_find? hstorage) hlt, ?_⟩
    cases t.bit port.enable with
    | false => exact .inl ⟨rfl, rfl⟩
    | true =>
      refine .inr ⟨_, _, rfl, h.isNumber (mem_sequential.1 hc).1, ⟨shape', hmemory, ?_⟩, by
        simp [Component.portWrite, Statement.binds]⟩
      -- the table that is left holds the words with one of them replaced
      obtain ⟨cells', hget, hcells'⟩ :=
        Store.holdsTable_setCell (s := t) (m := .storage c.id) hcells hlt word
      rw [Store.get_set_self] at hget
      refine ⟨words.set place word, cells', ⟨?_, fun w hw => ?_⟩, Except.ok.inj hget, hcells'⟩
      · rw [List.length_set, hwords.length_eq]
      · rcases List.mem_or_eq_of_mem_set hw with hw | rfl
        · exact hwords.lt w hw
        · exact hword

/-- A read stays within the table and gives a word of the data. -/
theorem sound_read [Machine] (h : n.Compiled .python exit s) (hc : c ∈ s.sequential)
    (hcell : c.cell = .memory shape ports) (k : Nat) : (Component.portRead c.id k).IsSound n := by
  intro t hready
  have hmemory := h.hasMemory hc hcell
  obtain ⟨_, hstorage, htable⟩ := hready (.storage c.id) (.head _)
  obtain ⟨_, haddress, hplace⟩ := hready (.address c.id k) (.tail _ (.head _))
  obtain ⟨words, cells, place, hwords, rfl, hcells, rfl, hlt⟩ :=
    exists_place hmemory htable hplace
  have hword := hwords.getD_lt place
  constructor
  · intro a ha
    rw [List.mem_singleton.1 ha]
    exact ⟨_, cells, place, hstorage, haddress, hlt⟩
  · exact ⟨_, lawful_unbounded.read (Store.get_of_find? haddress) (Store.get_of_find? hstorage) hlt
      (hcells place) trivial hword, .inr ⟨.read c.id k, _, rfl, h.isNumber (mem_sequential.1 hc).1,
      ⟨shape, hmemory, _, hword, rfl⟩, by simp [Component.portRead, Statement.binds]⟩⟩

end Memories

/-- Every statement of a turn is sound. -/
theorem isSound_of_emitted [Machine] (h : n.Compiled .python exit s)
    (hst : Emitted n .python s st) :
    st.IsSound n := by
  have hid : ∀ c ∈ s.sequential, c.id.IsNumber := fun c hc => h.isNumber (mem_sequential.1 hc).1
  cases hst with
  | settle hc hst => exact h.sound_settle hc hst
  | @follow c hc data hdata =>
    refine Statement.isSound_of_sets rfl fun t hready => ?_
    have hbit := hready.wire (w := data) (.head _)
    exact ⟨.next c.id, _, lawful_unbounded.follow hbit, hid c hc, ⟨_, rfl⟩, by
      simp [Statement.binds]⟩
  | @choose c hc hregister enable data henable hdata =>
    refine Statement.isSound_of_sets rfl fun t hready => ?_
    have hselect := hready.wire (w := enable) (by simp [Statement.reads, Expr.names, Expr.wire])
    have hnew := hready.wire (w := data) (by simp [Statement.reads, Expr.names, Expr.wire])
    have hold := hready.wire (w := c.wire 0) (by simp [Statement.reads, Expr.names, Expr.wire])
    exact ⟨.next c.id, _, lawful_unbounded.choose hselect hnew hold, hid c hc, ⟨_, rfl⟩, by
      simp [Statement.binds]⟩
  | @address c hc shape ports hcell k bus hlength hbus =>
    refine sound_word (.address c.id k) (hid c hc) fun word hword => ?_
    exact ⟨shape, h.hasMemory hc hcell, word, hlength ▸ hword, rfl⟩
  | @data c hc shape ports hcell k bus hlength hbus =>
    refine sound_word (.data c.id k) (hid c hc) fun word hword => ?_
    exact ⟨shape, h.hasMemory hc hcell, word, hlength ▸ hword, rfl⟩
  | @write c hc shape ports hcell k port henable => exact h.sound_write hc hcell k port
  | read hc hcell k => exact h.sound_read hc hcell k
  | @commit c hc hregister =>
    refine Statement.isSound_of_sets rfl fun t hready => ?_
    obtain ⟨_, hnext, b, rfl⟩ := hready (.next c.id) (.head _)
    exact ⟨.wire (c.wire 0), _, lawful_unbounded.commit (Store.get_of_find? hnext),
      ⟨hid c hc, rfl⟩, ⟨b, rfl⟩, by simp [Statement.binds]⟩
  | @pick c hc shape ports hcell k b hk hb =>
    refine Statement.isSound_of_sets (Expr.accesses_bit ..) fun t hready => ?_
    have hmem : .read c.id k ∈ (Expr.bit (.name (.read c.id k)) b).names := by
      rw [Expr.names_bit]
      exact .head _
    obtain ⟨_, hread, shape', hmemory, word, hword, rfl⟩ := hready (.read c.id k) hmem
    obtain rfl := hmemory.unique (h.hasMemory hc hcell)
    exact ⟨.wire (c.wire _), _, lawful_unbounded.pick (Store.get_of_find? hread) trivial hword hb,
      ⟨hid c hc, rfl⟩, ⟨_, rfl⟩, by simp [Statement.binds]⟩

end Compiled

end Netlist

/-! ### Turns -/

namespace Store

variable {n : Netlist} {scope : List Name} {t u : Store} {st : Statement} {xs : List Statement}

private theorem IsSafe.ready [Machine] (h : t.IsSafe n scope) (hscope : ∀ m ∈ scope, m.IsProper)
    (hreads : ∀ m ∈ st.reads, m ∈ scope) : st.Ready n t := by
  intro m hm
  obtain ⟨c, hc⟩ := h.bound m (hreads m hm)
  exact ⟨c, hc, h.admitted m (hscope m (hreads m hm)) c hc⟩

private theorem IsSafe.leaves [Machine] (h : t.IsSafe n scope) (hu : st.Leaves n t u) :
    u.IsSafe n (scope ++ st.binds) := by
  rcases hu with ⟨rfl, hbinds⟩ | ⟨m, c, rfl, hm, hc, hbinds⟩
  · rwa [hbinds, List.append_nil]
  · refine (h.set hm hc).mono fun m' hm' => ?_
    rcases List.mem_append.1 hm' with hm' | hm'
    · exact List.mem_append_left _ hm'
    · exact List.mem_append_right _ (List.mem_singleton.2 (hbinds m' hm'))

private theorem IsSafe.run [Machine] (h : t.IsSafe n scope) (hscoped : ScopedFrom scope xs)
    (hsound : ∀ st ∈ xs, st.IsSound n)
    (hproper : ∀ m ∈ scope ++ xs.flatMap Statement.binds, m.IsProper) :
    ∃ u, xs.foldlM Statement.run t = .ok u ∧ u.IsSafe n (scope ++ xs.flatMap Statement.binds) := by
  induction xs generalizing scope t with
  | nil => exact ⟨t, rfl, by simpa using h⟩
  | cons st xs ih =>
    have hready := h.ready (fun m hm => hproper m (List.mem_append_left _ hm)) hscoped.1
    obtain ⟨-, u, hrun, hleaves⟩ := hsound st (.head _) t hready
    rw [List.flatMap_cons, ← List.append_assoc] at hproper ⊢
    obtain ⟨w, hrest, hw⟩ := ih (h.leaves hleaves) hscoped.2
      (fun st' hst' => hsound st' (.tail _ hst')) hproper
    refine ⟨w, ?_, hw⟩
    rw [List.foldlM_cons]
    exact bind_eq_ok.2 ⟨u, hrun, hrest⟩

end Store

namespace Netlist.Compiled

variable {n : Netlist} {exit : Wire} {s : Schedule} {title : Text} {p : Procedure} {t : Store}

/-- In a turn that starts from a safe store, the first statements run and leave a safe store, in
which the next one stays within the range of storages. -/
theorem exists_safeAt [Machine] (h : n.Compiled .python exit s)
    (hp : p = s.procedure .python title n.outputs exit) (ht : t.IsSafe n p.lasting)
    {before after : List Statement} (hsplit : p.body = before ++ after) :
    ∃ u, before.foldlM Statement.run t = .ok u ∧ u.IsSafe n (p.scope before) ∧
      p.SafeAt n before u := by
  have hdeclared : ∀ m ∈ p.declared, m.IsProper := by
    intro m hm
    rw [hp] at hm
    exact h.isProper_of_mem_declared hm
  have hproper : ∀ m ∈ p.scope before, m.IsProper := by
    intro m hm
    apply hdeclared
    rw [Procedure.declared, Procedure.scope, hsplit, List.flatMap_append, ← List.append_assoc]
    exact List.mem_append_left _ hm
  have hsound : ∀ st ∈ before ++ after, st.IsSound n := by
    intro st hst
    rw [← hsplit, hp] at hst
    exact h.isSound_of_emitted (h.emitted hst)
  have hscoped : ScopedFrom p.lasting (before ++ after) := by
    rw [← hsplit, hp]
    exact h.scoped_body title
  rw [scopedFrom_append] at hscoped
  obtain ⟨u, hrun, hu⟩ := ht.run hscoped.1
    (fun st hst => hsound st (List.mem_append_left _ hst)) hproper
  refine ⟨u, hrun, hu, hu.bound, fun m hm => hu.admitted m (hdeclared m hm), ?_⟩
  intro st rest hst
  obtain rfl : after = st :: rest := List.append_cancel_left (hsplit.symm.trans hst)
  exact (hsound st (by simp) u (hu.ready hproper hscoped.2.1)).1

private theorem get_wire [Machine] (h : n.Compiled .python exit s)
    (hp : p = s.procedure .python title n.outputs exit) (ht : t.IsSafe n (p.scope p.settle))
    {w : Wire} (hw : n.IsWire w) : t.get (.wire w) = .ok (.ofBit (t.bit w)) := by
  have hmem := h.wire_mem_settled hw title
  rw [← hp] at hmem
  obtain ⟨c, hc⟩ := ht.bound _ hmem
  obtain ⟨b, rfl⟩ := ht.admitted (.wire w) hw.1 c hc
  rw [Store.bit_eq hc, Store.get_of_find? hc]

/-- A turn from a safe store returns or leaves a safe store. -/
theorem exists_turn [Machine] (h : n.Compiled .python exit s)
    (hp : p = s.procedure .python title n.outputs exit) (ht : t.IsSafe n p.lasting) :
    ∃ here, p.turn t = .ok here ∧ ∀ u, here = .running u → u.IsSafe n p.lasting := by
  have hbody : p.body = p.settle ++ (p.next ++ p.commit) := List.append_assoc ..
  obtain ⟨u, hsettle, hu, -⟩ := h.exists_safeAt hp ht hbody
  have hflag : Engine.unbounded.flag u p.exitFlag = .ok (u.bit exit) := by
    obtain ⟨o, ho, rfl⟩ := h.exit
    rw [hp]
    exact lawful_unbounded.flag (h.get_wire hp hu (h.output_hasWire ho))
  rw [← Procedure.turn_eq]
  cases hexit : u.bit exit with
  | true =>
    rw [hexit] at hflag
    have hbits : ∀ (k : Nat) (w : Wire), (n.outputs.map Prod.snd)[k]? = some w →
        u.get (.wire w) = .ok (.ofBit (((n.outputs.map Prod.snd)[k]?).any u.bit)) := by
      intro k w hw
      obtain ⟨o, ho, rfl⟩ := List.mem_map.1 (List.mem_of_getElem? hw)
      rw [hw, Option.any_some]
      exact h.get_wire hp hu (h.output_hasWire ho)
    have hresult := lawful_unbounded.result (p := p) (by rw [hp, List.map_map]; rfl)
      (by rw [hp, List.length_map]; exact List.length_map ..) nofun hbits
    exact ⟨_, Engine.turn_returned hsettle hflag hresult, nofun⟩
  | false =>
    rw [hexit] at hflag
    obtain ⟨w, hrun, hw, -⟩ := h.exists_safeAt hp ht (List.append_nil _).symm
    -- the run of the whole turn passes the store that the wires have settled in
    rw [hbody, List.foldlM_append] at hrun
    obtain ⟨u', hsettle', hrun⟩ := bind_eq_ok.1 hrun
    obtain rfl := Except.ok.inj (hsettle'.symm.trans hsettle)
    rw [List.foldlM_append] at hrun
    obtain ⟨v, hnext, hcommit⟩ := bind_eq_ok.1 hrun
    refine ⟨_, Engine.turn_running hsettle hflag hnext hcommit, ?_⟩
    rintro _ ⟨⟩
    exact hw.mono fun m hm => List.mem_append_left _ hm

/-- From a safe store on, every number of turns can be taken; the store stays safe until the
procedure returns. -/
theorem exists_turns [Machine] (h : n.Compiled .python exit s)
    (hp : p = s.procedure .python title n.outputs exit) (ht : t.IsSafe n p.lasting) (k : Nat) :
    ∃ here, p.turns k (.running t) = .ok here ∧
      ∀ u, here = .running u → u.IsSafe n p.lasting := by
  induction k with
  | zero =>
    refine ⟨.running t, rfl, ?_⟩
    rintro _ ⟨⟩
    exact ht
  | succ k ih =>
    obtain ⟨here, hturns, hhere⟩ := ih
    rw [← Procedure.turns_eq] at hturns ⊢
    cases here with
    | returned result => exact ⟨.returned result, bind_eq_ok.2 ⟨_, hturns, rfl⟩, nofun⟩
    | running u =>
      obtain ⟨there, hturn, hthere⟩ := h.exists_turn hp (hhere u rfl)
      rw [← Procedure.turn_eq] at hturn
      exact ⟨there, bind_eq_ok.2 ⟨_, hturns, hturn⟩, hthere⟩

end Netlist.Compiled

/-! ### The start -/

private theorem Store.IsSafe.foldl_set [Machine] {n : Netlist} {scope : List Name} {t : Store}
    {α : Type} {xs : List α} (name : α → Name) (content : α → Content) (h : t.IsSafe n scope)
    (hxs : ∀ x ∈ xs, (name x).IsProper ∧ (name x).Admits n (content x)) :
    (xs.foldl (fun s x => s.set (name x) (content x)) t).IsSafe n (scope ++ xs.map name) := by
  refine foldl_induct (P := fun before (u : Store) => u.IsSafe n (scope ++ before.map name))
    (by simpa using h) fun before x after u hsplit hu => ?_
  obtain ⟨hproper, hadmits⟩ := hxs x (by simp [hsplit])
  rw [List.map_append, ← List.append_assoc]
  exact hu.set hproper hadmits

private theorem MemoryShape.isTable_init (shape : MemoryShape) :
    shape.IsTable (.table shape.depth (shape.init.map .ofWord)) := by
  obtain ⟨cells, hget, hcells⟩ := holdsTable_contents ⟨Text.empty, ∅⟩ (.given .empty) shape
  rw [Store.get_set_self] at hget
  exact ⟨shape.contents, cells, shape.holds_contents, Except.ok.inj hget, hcells⟩

namespace Netlist.Compiled

variable {n : Netlist} {d : Dialect} {exit : Wire} {s : Schedule}

/-- The declarations of a component set its names to what they admit. -/
theorem isSafe_declare [Machine] (h : n.Compiled d exit s) {c : Component} (hc : c ∈ s.sequential)
    {scope : List Name} {t : Store} (ht : t.IsSafe n scope) :
    (c.declare.foldl Declaration.place t).IsSafe n
      (scope ++ c.declare.flatMap Declaration.names) := by
  have hc' := (mem_sequential.1 hc).1
  unfold Component.declare
  cases hcell : c.cell with
  | register init enable data => exact ht.set (h.wire_isProper hc' 0) ⟨init, rfl⟩
  | memory shape ports =>
    have hcells : ((List.range shape.outputCount).map fun k => Name.wire (c.wire k)).foldl
        (fun s m => s.set m (.ofBit false)) t |>.IsSafe n (scope ++
          ((List.range shape.outputCount).map fun k => Name.wire (c.wire k)).map id) := by
      refine ht.foldl_set id (fun _ => .ofBit false) fun m hm => ?_
      obtain ⟨k, -, rfl⟩ := List.mem_map.1 hm
      exact ⟨h.wire_isProper hc' k, false, rfl⟩
    have hstorage := hcells.set (m := .storage c.id) (h.isNumber hc')
      ⟨shape, h.hasMemory hc hcell, shape.isTable_init⟩
    rw [List.map_id, List.append_assoc] at hstorage
    exact hstorage
  | _ => simpa using ht

/-- The store with which a procedure starts its loop is safe. -/
theorem isSafe_opening [Machine] (h : n.Compiled d exit s) (title : Text) (input : Text → Int) :
    ((s.procedure d title n.outputs exit).opening input).IsSafe n
      (s.procedure d title n.outputs exit).lasting := by
  have hinputs : (s.inputs.foldl (Store.give input) ⟨title, ∅⟩).IsSafe n
      (s.inputs.map .given) := by
    refine (Store.isSafe_empty n title).foldl_set .given (fun name => .number (input name)) ?_
    intro name hname
    exact ⟨h.given_isProper hname, input name, rfl⟩
  change ((s.sequential.flatMap Component.declare).foldl Declaration.place
    (s.inputs.foldl (Store.give input) ⟨title, ∅⟩)).IsSafe n (s.inputs.map .given ++
      (s.sequential.flatMap Component.declare).flatMap Declaration.names)
  rw [List.foldl_flatMap, List.flatMap_assoc]
  refine foldl_induct (P := fun before (t : Store) => t.IsSafe n (s.inputs.map .given ++
    before.flatMap fun c : Component => c.declare.flatMap Declaration.names))
    (by simpa using hinputs) ?_
  intro before c after t hsplit ht
  rw [List.flatMap_append, List.flatMap_singleton, ← List.append_assoc]
  exact h.isSafe_declare (by rw [hsplit]; simp) ht

end Netlist.Compiled

namespace Netlist

/-- A compiled procedure is safe. On all integers as inputs it takes any number of turns without a
failure, and in the midst of every turn each name stands for what it admits: wires and next values
for a bit, storages for a table with a word of the data width at each address, addresses for a
number below the size of the table. So no statement uses a storage out of its range. -/
theorem compile_isSafe [Machine] (n : Netlist) (hn : n.IsLoaded) (name done : Value) (p : Procedure)
    (hp : n.compile .python name done = .ok p) (input : Text → Int) (start : Store)
    (hstart : p.start (p.inputs.map fun x => .number (input x)) = .ok start) (k : Nat) :
    ∃ here, p.turns k (.running start) = .ok here ∧
      ∀ t, here = .running t → ∀ before after, p.body = before ++ after →
        ∃ u, before.foldlM Statement.run t = .ok u ∧ p.SafeAt n before u := by
  obtain ⟨s, exit, title, -, h, hprocedure⟩ := compile_ok hp hn.isNumbered
  have hsafe : start.IsSafe n p.lasting := by
    rw [Procedure.start_eq] at hstart
    obtain ⟨⟨⟩, -, rfl⟩ := map_eq_ok.1 hstart
    rw [hprocedure]
    exact h.isSafe_opening title input
  obtain ⟨here, hturns, hhere⟩ := h.exists_turns hprocedure hsafe k
  refine ⟨here, hturns, fun t ht before after hsplit => ?_⟩
  obtain ⟨u, hrun, -, hu⟩ := h.exists_safeAt hprocedure (hhere t ht) hsplit
  exact ⟨u, hrun, hu⟩

open Desktop in
/-- A procedure that starts on every input and takes turns without a failure. -/
theorem latch_isSafe :
    latch.IsLoaded ∧ ∃ p, latch.compile .python (.text "top") (.text "done") = .ok p ∧
      p.inputs = ["w"].map Text.ofString ∧ ∀ z : Int, ∃ start, p.start [.number z] = .ok start ∧
        ∀ k, ∃ here, p.turns k (.running start) = .ok here ∧
          ∀ t, here = .running t → ∀ before after, p.body = before ++ after →
            ∃ u, before.foldlM Statement.run t = .ok u ∧ p.SafeAt latch before u := by
  obtain ⟨p, hp, hinputs, hstorages⟩ :
      ∃ p, latch.compile .python (.text "top") (.text "done") = .ok p ∧
        p.inputs = ["w"].map Text.ofString ∧ p.checkStorages = .ok () :=
    ⟨_, by rw [compile, schedule_latch]; rfl, rfl, rfl⟩
  refine ⟨isLoaded_latch, p, hp, hinputs, fun z => ⟨p.opening fun _ => z, ?_⟩⟩
  have hstart : p.start (p.inputs.map fun _ => .number z) = .ok (p.opening fun _ => z) := by
    rw [Procedure.start_eq, hstorages]
    rfl
  constructor
  · rw [hinputs] at hstart
    exact hstart
  · exact compile_isSafe latch isLoaded_latch _ _ p hp (fun _ => z) _ hstart

end Netlist

end Latchwork
