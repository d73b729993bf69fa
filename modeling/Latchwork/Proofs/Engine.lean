import Latchwork.Procedure.Run
import Latchwork.Proofs.Name
import Latchwork.Proofs.Synchronous

/-!
# Engines

An engine runs the statements of a procedure over stores of named contents. The loop around them is
the same for all engines; they differ in how they calculate. A lawful engine calculates bits and
words as the synchronous semantics does, as long as the words fit: its laws say, for each form of
statement that a compiled procedure has, what the statement leaves in the store.
-/

namespace Latchwork

open Outcome

/-- A way to run procedures: what a statement leaves, whether a name is set, what is returned, and
what is left of a store when a turn of the loop that began with another one ends. -/
structure Engine where
  Fault : Type
  run : Store → Statement → Except Fault Store
  flag : Store → Name → Except Fault Bool
  result : Procedure → Store → Except Fault Content
  leave : Store → Store → Store

namespace Engine

/-- One turn of the loop. -/
def turn (E : Engine) (p : Procedure) (s : Store) : Except E.Fault Progress := do
  let settled ← p.settle.foldlM E.run s
  if ← E.flag settled p.exitFlag then return .returned (← E.result p settled)
  let computed ← p.next.foldlM E.run settled
  let committed ← p.commit.foldlM E.run computed
  return .running (E.leave s committed)

variable {E : Engine} {p : Procedure} {s t u w : Store}

/-- A turn with the exit flag set. -/
theorem turn_returned (hsettle : p.settle.foldlM E.run s = .ok t)
    (hflag : E.flag t p.exitFlag = .ok true) {c : Content} (hresult : E.result p t = .ok c) :
    E.turn p s = .ok (.returned c) := by
  rw [turn, hsettle]
  simp only [bind, Except.bind, hflag, hresult]
  rfl

/-- A turn with the exit flag clear. -/
theorem turn_running (hsettle : p.settle.foldlM E.run s = .ok t)
    (hflag : E.flag t p.exitFlag = .ok false) (hnext : p.next.foldlM E.run t = .ok u)
    (hcommit : p.commit.foldlM E.run u = .ok w) : E.turn p s = .ok (.running (E.leave s w)) := by
  rw [turn, hsettle]
  simp only [bind, Except.bind, hflag, hnext, hcommit]
  rfl

/-- One more turn, unless the run has returned. -/
def advance (E : Engine) (p : Procedure) : Progress → Except E.Fault Progress
  | .returned result => .ok (.returned result)
  | .running s => E.turn p s

/-- So many turns from a store on. -/
def turns (E : Engine) (p : Procedure) (s : Store) : Nat → Except E.Fault Progress
  | 0 => .ok (.running s)
  | k + 1 => E.turns p s k >>= E.advance p

end Engine

/-! ### Bits, words and tables in a store -/

namespace Content

/-- A bit as a content. -/
def ofBit (b : Bool) : Content := .number (b.toNat : Nat)

/-- A word as a content. -/
def ofWord (word : Nat) : Content := .number word

end Content

namespace Store

variable {s : Store} {m n : Name}

/-- Setting a name leaves all other names alone, where both are proper. -/
theorem get_set_of_isProper (c : Content) (hm : m.IsProper) (hn : n.IsProper) (h : m ≠ n) :
    (s.set n c).get m = s.get m :=
  s.get_set_of_ne c fun htext => h (Name.text_inj hm hn htext)

/-- A name stands for a table of these words. -/
def HoldsTable (s : Store) (m : Name) (words : List Nat) : Prop :=
  ∃ cells, s.get m = .ok (.table words.length cells) ∧
    ∀ k, cells.getD k (.number 0) = .ofWord (words.getD k 0)

/-- Replacing a cell of a table replaces the word. -/
theorem holdsTable_setCell {words : List Nat} {cells : List Content}
    (hcells : ∀ k, cells.getD k (.number 0) = .ofWord (words.getD k 0)) {address : Nat}
    (haddress : address < words.length) (word : Nat) :
    (s.set m (.table words.length (Content.setCell (.ofWord word) address cells))).HoldsTable m
      (words.set address word) := by
  refine ⟨_, by rw [get_set_self, List.length_set], fun k => ?_⟩
  rw [Content.getD_setCell]
  by_cases hk : k = address
  · subst hk
    simp [haddress]
  · have hne : address ≠ k := fun heq => hk heq.symm
    rw [if_neg hk, hcells k, List.getD_eq_getElem?_getD, List.getD_eq_getElem?_getD,
      List.getElem?_set_ne hne]

end Store

/-! ### Laws -/

/-- An engine for procedures of a dialect that calculates with bits and words as it should, for
words of fitting widths and for accepted arguments. -/
structure Engine.Lawful (E : Engine) (d : Dialect) (fits : Nat → Prop) (accepts : Int → Prop) :
    Prop where
  /-- A combinational component settles to what its cell drives. -/
  settle {s : Store} {c : Component} {input : Text → Int} {v : Valuation} {b : Bool}
    (hreads : ∀ w ∈ c.cell.reads, s.get (.wire w) = .ok (.ofBit (v.at w)))
    (hinput : ∀ name, c.cell = .input name →
      s.get (.given name) = .ok (.number (input name)) ∧ accepts (input name))
    (hb : c.cell.drives? input v = some b) :
    c.settle.foldlM E.run s = .ok (s.set (.wire (c.wire 0)) (.ofBit b))
  /-- The next value of a register without an enable. -/
  follow {s : Store} {id : Index} {data : Wire} {b : Bool}
    (hdata : s.get (.wire data) = .ok (.ofBit b)) :
    E.run s (.bind (.next id) (.wire data) none) = .ok (s.set (.next id) (.ofBit b))
  /-- The next value of a register with an enable. -/
  choose {s : Store} {id : Index} {enable data old : Wire} {e b o : Bool}
    (henable : s.get (.wire enable) = .ok (.ofBit e))
    (hdata : s.get (.wire data) = .ok (.ofBit b)) (hold : s.get (.wire old) = .ok (.ofBit o)) :
    E.run s (.bind (.next id) (.choose (.wire enable) (.wire data) (.wire old)) none) =
      .ok (s.set (.next id) (.ofBit (if e then b else o)))
  /-- The word on a bus. -/
  word {s : Store} {dest : Name} {bus : List Wire} {bit : Nat → Bool} (hfits : fits bus.length)
    (hbits : ∀ k w, bus[k]? = some w → s.get (.wire w) = .ok (.ofBit (bit k))) :
    E.run s (.bindWord dest (.word d (bus.map .wire))) =
      .ok (s.set dest (.ofWord (weigh bus.length bit)))
  /-- The write of a memory port. -/
  write {s : Store} {id : Index} {k : Nat} {port : MemoryPort} {e : Bool} {word address : Nat}
    {size : Nat} {cells : List Content} (henable : s.get (.wire port.enable) = .ok (.ofBit e))
    (hdata : s.get (.data id k) = .ok (.ofWord word))
    (haddress : s.get (.address id k) = .ok (.ofWord address))
    (hstorage : s.get (.storage id) = .ok (.table size cells)) (hlt : address < size) :
    E.run s (Component.portWrite id k port) =
      .ok (if e then
          s.set (.storage id) (.table size (Content.setCell (.ofWord word) address cells))
        else s)
  /-- The read of a memory port. -/
  read {s : Store} {id : Index} {k : Nat} {word address : Nat} {size : Nat} {cells : List Content}
    {width : Nat} (haddress : s.get (.address id k) = .ok (.ofWord address))
    (hstorage : s.get (.storage id) = .ok (.table size cells)) (hlt : address < size)
    (hword : cells.getD address (.number 0) = .ofWord word) (hfits : fits width)
    (hwidth : word < 2 ^ width) :
    E.run s (Component.portRead id k) = .ok (s.set (.read id k) (.ofWord word))
  /-- The commit of a register. -/
  commit {s : Store} {w : Wire} {id : Index} {b : Bool}
    (hnext : s.get (.next id) = .ok (.ofBit b)) :
    E.run s (.assign (.wire w) (.name (.next id))) = .ok (s.set (.wire w) (.ofBit b))
  /-- The commit of one output bit of a memory port. -/
  pick {s : Store} {w : Wire} {id : Index} {k : Nat} {word width index : Nat}
    (hread : s.get (.read id k) = .ok (.ofWord word)) (hfits : fits width)
    (hwidth : word < 2 ^ width) (hindex : index < width) :
    E.run s (.assign (.wire w) (.bit (.name (.read id k)) index)) =
      .ok (s.set (.wire w) (.ofBit (word.testBit index)))
  /-- The test of the exit flag. -/
  flag {s : Store} {w : Wire} {b : Bool} (hflag : s.get (.wire w) = .ok (.ofBit b)) :
    E.flag s (.wire w) = .ok b
  /-- The packed outputs. -/
  result {s : Store} {p : Procedure} {bus : List Wire} {bit : Nat → Bool}
    (hresult : p.result = .packed d (bus.map .wire)) (hlength : p.outputs.length = bus.length)
    (hlimit : d = .c → bus.length ≤ outputLimit)
    (hbits : ∀ k w, bus[k]? = some w → s.get (.wire w) = .ok (.ofBit (bit k))) :
    E.result p s = .ok (.ofWord (weigh bus.length bit))
  /-- What was there when a turn began is there when it ends. -/
  leave {s t : Store} {m : Name} {c c' : Content} (hs : s.get m = .ok c) (hc : c ≠ .procedure)
    (ht : t.get m = .ok c') : (E.leave s t).get m = .ok c'

/-! ### Operators on bits -/

namespace Operator

/-- The next bit of a word is put in place by a disjunction as well as by a sum. -/
theorem onNumbers_weigh {op : Operator} (hop : op = .or ∨ op = .add) (k : Nat) (bit : Nat → Bool) :
    op.onNumbers (weigh k bit : Nat) ((bit k).toNat * 2 ^ k : Nat) = (weigh (k + 1) bit : Nat) := by
  have hlt := weigh_lt k bit
  rw [weigh_succ]
  rcases hop with rfl | rfl
  · change Int.ofNat (weigh k bit ||| (bit k).toNat * 2 ^ k) = _
    rw [Nat.or_comm, Nat.mul_comm, ← Nat.two_pow_add_eq_or_of_lt hlt, Nat.add_comm]
    rfl
  · exact (Int.natCast_add _ _).symm

/-- The conjunction with one picks a bit of a word that is shifted down to it. -/
theorem onNumbers_and_one (word index : Nat) :
    Operator.and.onNumbers (word >>> index : Nat) 1 = ((word.testBit index).toNat : Nat) := by
  change Int.ofNat (word >>> index &&& 1) = _
  rw [Nat.and_one_is_mod, Nat.shiftRight_eq_div_pow, ← Nat.toNat_testBit]
  rfl

/-- The conjunction of one with a number is its lowest bit. -/
theorem onNumbers_one_and (z : Int) :
    Operator.and.onNumbers 1 z = ((z % 2 == 1).toNat : Nat) := by
  change Bits.and 1 z = _
  rw [Bits.one_and]
  rcases Int.emod_two_eq_zero_or_one z with h | h
  · rw [h]
    rfl
  · rw [h]
    rfl

end Operator

/-- The operator of a gate. -/
def Gate.operator : Gate → Operator
  | .and => .and
  | .or => .or
  | .xor => .xor
  | .equal => .equal

/-- On bits the operator of a gate has the value of the gate. -/
theorem Gate.onNumbers_operator (op : Gate) (a b : Bool) :
    op.operator.onNumbers (a.toNat : Nat) (b.toNat : Nat) = ((op.onBits a b).toNat : Nat) := by
  cases op <;> cases a <;> cases b <;> rfl

/-- A gate settles by its operator. -/
theorem Component.settle_gate {c : Component} {op : Gate} {a b : Wire}
    (h : c.cell = .gate op a b) :
    c.settle = [.bind (.wire (c.wire 0)) (.binary op.operator (.wire a) (.wire b)) none] := by
  rw [settle, h]
  cases op <;> rfl

/-- A combinational component settles by one statement, whose expression has one of five forms. What
holds of each form and the bit that it stands for holds of the statement. -/
theorem Component.exists_settle {c : Component} {input : Text → Int} {v : Valuation} {b : Bool}
    (hb : c.cell.drives? input v = some b) {P : Expr → Bool → Prop}
    (constant : ∀ value : Bool, P (.literal value.toNat) value)
    (inverter : ∀ a ∈ c.cell.reads, P (.binary .xor (.literal 1) (.wire a)) (!v.at a))
    (gate : ∀ op : Gate, ∀ a ∈ c.cell.reads, ∀ a' ∈ c.cell.reads,
      P (.binary op.operator (.wire a) (.wire a')) (op.onBits (v.at a) (v.at a')))
    (multiplexer : ∀ select ∈ c.cell.reads, ∀ whenSet ∈ c.cell.reads, ∀ whenClear ∈ c.cell.reads,
      P (.choose (.wire select) (.wire whenSet) (.wire whenClear))
        (if v.at select then v.at whenSet else v.at whenClear))
    (given : ∀ name, c.cell = .input name →
      P (.binary .and (.literal 1) (.name (.given name))) (input name % 2 == 1)) :
    ∃ e note, c.settle = [.bind (.wire (c.wire 0)) e note] ∧ P e b := by
  cases hcell : c.cell with
  | constant value =>
    rw [hcell] at hb
    cases hb
    exact ⟨_, _, by rw [settle, hcell], constant b⟩
  | inverter a =>
    rw [hcell] at hb inverter
    cases hb
    exact ⟨_, _, by rw [settle, hcell], inverter a (by simp [Cell.reads])⟩
  | gate op a a' =>
    rw [hcell] at hb gate
    cases hb
    exact ⟨_, _, settle_gate hcell, gate op a (by simp [Cell.reads]) a' (by simp [Cell.reads])⟩
  | multiplexer select whenSet whenClear =>
    rw [hcell] at hb multiplexer
    cases hb
    exact ⟨_, _, by rw [settle, hcell], multiplexer select (by simp [Cell.reads]) whenSet
      (by simp [Cell.reads]) whenClear (by simp [Cell.reads])⟩
  | input name =>
    have hgiven := given name hcell
    rw [hcell] at hb
    cases hb
    exact ⟨_, _, by rw [settle, hcell], hgiven⟩
  | register init enable data =>
    rw [hcell] at hb
    cases hb
  | memory shape ports =>
    rw [hcell] at hb
    cases hb

/-- One more term is joined at the end. -/
theorem Expr.joined_concat (op : Operator) (terms : List Expr) (e : Expr) :
    joined op (terms ++ [e]) = if terms = [] then e else .binary op (joined op terms) e := by
  cases terms with
  | nil => rfl
  | cons first rest => simp [joined, List.foldl_append]

end Latchwork
