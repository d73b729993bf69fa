import Latchwork.Dialect.C
import Latchwork.Proofs.Scope
import Latchwork.Proofs.Unbounded

/-!
# Running on integers of fixed width

The meaning of a procedure in C. Bits are of type `int`, with 32 bits, and words of type `unsigned
long long`, with 64 bits. The operands of an operator are converted to a common type first. Unsigned
arithmetic wraps around. Signed overflow, a shift by the width of the shifted operand or more, an
index past the end of an array, and a conversion to `int` that changes the value are faults.

Before it runs, a procedure is translated. An implementation defines some names by itself, and does
not translate a procedure that introduces one of them.

Where no memory has wider words or addresses than 64 bits, a translated procedure meets none of
these faults: the engine is lawful, so that the procedure in C and the one on unbounded integers
return after the same number of turns and with the same number, if both can be started.
-/

namespace Latchwork

open Outcome

/-! ### Types and conversions -/

/-- What must not happen while a procedure runs. -/
inductive Fault where
  | signedOverflow
  | wideShift
  | outOfRange
  | narrowing
  | literal
  | unbound
  | predefinedName
  deriving DecidableEq, Repr

/-- The types of bits and words. -/
inductive IntType where
  | int
  | wide
  deriving DecidableEq, Repr

namespace IntType

/-- The number of bits of a type. -/
def width : IntType → Nat
  | .int => 32
  | .wide => 64

/-- The number of bits that numbers from zero on have in a type. -/
def digits : IntType → Nat
  | .int => 31
  | .wide => 64

/-- The numbers of a type. -/
def Holds : IntType → Int → Prop
  | .int, z => -2 ^ 31 ≤ z ∧ z < 2 ^ 31
  | .wide, z => 0 ≤ z ∧ z < 2 ^ 64

instance (t : IntType) (z : Int) : Decidable (t.Holds z) := by
  cases t
  · exact inferInstanceAs (Decidable (-2 ^ 31 ≤ z ∧ z < 2 ^ 31))
  · exact inferInstanceAs (Decidable (0 ≤ z ∧ z < 2 ^ 64))

/-- The common type of two operands. -/
def join : IntType → IntType → IntType
  | .int, .int => .int
  | _, _ => .wide

/-- The result of an operation in a type. -/
def reduce : IntType → Int → Except Fault Int
  | .int, z => if IntType.int.Holds z then .ok z else .error .signedOverflow
  | .wide, z => .ok (z % 2 ^ 64)

/-- The conversion of a number to a type. -/
def convert : IntType → Int → Except Fault Int
  | .int, z => if IntType.int.Holds z then .ok z else .error .narrowing
  | .wide, z => .ok (z % 2 ^ 64)

end IntType

/-- The type of what a name stands for; a storage is an array of words. -/
def Name.type : Name → IntType
  | .given _ => .int
  | .wire _ => .int
  | .next _ => .int
  | .storage _ => .wide
  | .address _ _ => .wide
  | .data _ _ => .wide
  | .read _ _ => .wide

/-- The type of an expression. -/
def Expr.type : Expr → IntType
  | .name m => m.type
  | .literal _ => .int
  | .wideLiteral _ => .wide
  | .widen _ => .wide
  | .binary .equal _ _ => .int
  | .binary _ a b => a.type.join b.type
  | .shiftLeft e _ => e.type
  | .shiftRight e _ => e.type
  | .choose _ a b => a.type.join b.type
  | .element _ _ => .wide

/-! ### Runs -/

/-- The number that a content is. -/
def Content.toNumber : Content → Except Fault Int
  | .number z => .ok z
  | _ => .error .unbound

/-- The number that a name stands for. -/
def Store.number (s : Store) (m : Name) : Except Fault Int :=
  match s.get m with
  | .ok c => c.toNumber
  | .error _ => .error .unbound

/-- The array that a name stands for. -/
def Store.array (s : Store) (m : Name) : Except Fault (Nat × List Content) :=
  match s.get m with
  | .ok (.table size cells) => .ok (size, cells)
  | _ => .error .unbound

/-- The place in an array that a number stands for. -/
def arrayPlace (size : Nat) (z : Int) : Except Fault Nat :=
  if 0 ≤ z ∧ z < size then .ok z.toNat else .error .outOfRange

/-- The value of an expression. -/
def Expr.calculate (s : Store) : Expr → Except Fault Int
  | .name m => s.number m
  | .literal value => if value < 2 ^ 31 then .ok value else .error .literal
  | .wideLiteral value => if value < 2 ^ 64 then .ok value else .error .literal
  | .widen e => do IntType.wide.convert (← e.calculate s)
  | .binary op a b => do
    let t := a.type.join b.type
    let x ← t.convert (← a.calculate s)
    let y ← t.convert (← b.calculate s)
    t.reduce (op.onNumbers x y)
  | .shiftLeft e count => do
    let x ← e.calculate s
    if e.type.width ≤ count then .error .wideShift
    else if x < 0 then .error .signedOverflow
    else e.type.reduce (x * 2 ^ count)
  | .shiftRight e count => do
    let x ← e.calculate s
    if e.type.width ≤ count then .error .wideShift else .ok (x >>> count)
  | .choose condition whenSet whenClear => do
    let t := whenSet.type.join whenClear.type
    if (← condition.calculate s) ≠ 0 then t.convert (← whenSet.calculate s)
    else t.convert (← whenClear.calculate s)
  | .element storage address => do
    let (size, cells) ← s.array storage
    let k ← arrayPlace size (← s.number address)
    (cells.getD k (.number 0)).toNumber

/-- The store that an assignment to a name of a type leaves. -/
def Store.assign (s : Store) (t : IntType) (dest : Name) (value : Expr) : Except Fault Store := do
  let z ← t.convert (← value.calculate s)
  return s.set dest (.number z)

/-- The store that a statement leaves. -/
def Statement.execute (s : Store) : Statement → Except Fault Store
  | .bind dest value _ => s.assign .int dest value
  | .bindWord dest value => s.assign .wide dest value
  | .assign dest value => s.assign dest.type dest value
  | .store enable storage address data => do
    if (← s.number enable) = 0 then return s
    let word ← s.number data
    let (size, cells) ← s.array storage
    let k ← arrayPlace size (← s.number address)
    return s.set storage (.table size (Content.setCell (.number word) k cells))

/-- The number of bits of the result. -/
def Procedure.resultWidth (p : Procedure) : Nat := if p.outputs.length ≤ 32 then 32 else 64

/-- What a store has of the names of another one. -/
def Store.within (t s : Store) : Store :=
  { t with contents := t.contents.filter fun text _ => s.contents.contains text }

/-- The engine that calculates with integers of fixed width. What was declared in a turn of the loop
is gone when the turn ends. -/
def Engine.fixedWidth : Engine where
  Fault := Latchwork.Fault
  run := Statement.execute
  flag s m := (s.number m).map fun z => decide (z ≠ 0)
  result p s := (p.result.calculate s).map fun z => .number (z % 2 ^ p.resultWidth)
  leave s t := t.within s

/-- The store that a declaration leaves. -/
def Declaration.execute (s : Store) : Declaration → Store
  | .cells names value => names.foldl (fun s m => s.set m (.ofBit value)) s
  | .storage name shape =>
    let array := Dialect.C.ArrayDeclaration.ofShape shape
    s.set name (.table array.length (array.values.map fun word => .ofWord (word % 2 ^ 64)))

/-- Passes an argument, which is of type `int`, to an input. -/
def Store.pass (input : Text → Int) (s : Store) (name : Text) : Except Fault Store := do
  return s.set (.given name) (.number (← IntType.int.convert (input name)))

/-- The store before the first turn. -/
def Procedure.enter (p : Procedure) (input : Text → Int) : Except Fault Store := do
  let given ← p.inputs.foldlM (Store.pass input) ⟨p.name, ∅⟩
  return p.declarations.foldl Declaration.execute given

/-! ### Values of expressions -/

namespace IntType

variable {t : IntType} {z : Int}

private theorem holds_of_lt {value k : Nat} (h : value < 2 ^ k) (hk : k ≤ t.digits) :
    t.Holds (value : Nat) := by
  have hlt : value < 2 ^ t.digits := Nat.lt_of_lt_of_le h (Nat.pow_le_pow_right Nat.two_pos hk)
  cases t with
  | int =>
    change value < 2 ^ 31 at hlt
    exact ⟨by omega, by omega⟩
  | wide =>
    change value < 2 ^ 64 at hlt
    exact ⟨by omega, by omega⟩

private theorem holds_bit (t : IntType) (b : Bool) : t.Holds (b.toNat : Nat) :=
  holds_of_lt (k := 1) (Bool.toNat_lt b) (by cases t <;> decide)

private theorem reduce_of_holds (h : t.Holds z) : t.reduce z = .ok z := by
  cases t with
  | int => exact if_pos h
  | wide => exact congrArg Except.ok (Int.emod_eq_of_lt h.1 h.2)

private theorem convert_of_holds (h : t.Holds z) : t.convert z = .ok z := by
  cases t with
  | int => exact if_pos h
  | wide => exact congrArg Except.ok (Int.emod_eq_of_lt h.1 h.2)

end IntType

/-- The number that a name stands for is read. -/
theorem Store.number_eq {s : Store} {m : Name} {z : Int} (h : s.get m = .ok (.number z)) :
    s.number m = .ok z := by
  rw [number, h]
  rfl

private theorem Store.array_eq {s : Store} {m : Name} {size : Nat} {cells : List Content}
    (h : s.get m = .ok (.table size cells)) : s.array m = .ok (size, cells) := by
  rw [array, h]

namespace Expr

variable {s : Store} {bits : Nat → Bool} {bus : List Wire} {cells : List Expr}

private theorem calculate_binary {op : Operator} {a b : Expr} {x y : Int}
    (ha : a.calculate s = .ok x) (hb : b.calculate s = .ok y) (hx : (a.type.join b.type).Holds x)
    (hy : (a.type.join b.type).Holds y) (hz : (a.type.join b.type).Holds (op.onNumbers x y)) :
    (Expr.binary op a b).calculate s = .ok (op.onNumbers x y) := by
  rw [calculate, ha, hb]
  change ((a.type.join b.type).convert x >>= fun x => (a.type.join b.type).convert y >>= _) = _
  rw [IntType.convert_of_holds hx, IntType.convert_of_holds hy]
  exact IntType.reduce_of_holds hz

private theorem bit_mul_lt (b : Bool) (k : Nat) : b.toNat * 2 ^ k < 2 ^ (k + 1) := by
  have := Nat.mul_le_mul_right (2 ^ k) (Bool.toNat_le b)
  have := Nat.two_pow_pos k
  rw [Nat.pow_succ]
  omega

/-- The type of a word of so many bits. -/
def typeOf (count : Nat) : IntType := if count ≤ 31 then .int else .wide

private theorem le_digits_typeOf {count : Nat} (h : count ≤ 64) : count ≤
    (typeOf count).digits := by
  unfold typeOf
  split
  · assumption
  · exact h

private theorem join_typeOf (count : Nat) :
    (typeOf count).join (typeOf (count + 1)) = typeOf (count + 1) := by
  unfold typeOf
  by_cases h : count + 1 ≤ 31
  · rw [if_pos h, if_pos (by omega)]
    rfl
  · rw [if_neg h]
    split <;> rfl

private theorem type_binary {op : Operator} (hop : op = .or ∨ op = .add) (a b : Expr) :
    (Expr.binary op a b).type = a.type.join b.type := by
  rcases hop with rfl | rfl <;> rfl

/-- The value of joined terms that are the bits of a word in their places: each term has the type
of a word that ends with it, and so has the word. -/
theorem calculate_joined {op : Operator} (hop : op = .or ∨ op = .add) {terms : List Expr}
    (hlength : terms.length ≤ 64)
    (h : ∀ (k : Nat) (e : Expr), terms[k]? = some e →
      e.calculate s = .ok ((bits k).toNat * 2 ^ k : Nat) ∧ e.type = typeOf (k + 1)) :
    (joined op terms).calculate s = .ok (weigh terms.length bits : Nat) ∧
      (joined op terms).type = typeOf terms.length := by
  induction terms using List.reverseRecOn with
  | nil =>
    rw [List.length_nil, weigh_zero]
    exact ⟨rfl, rfl⟩
  | append_singleton terms e ih =>
    rw [List.length_append, List.length_singleton] at hlength ⊢
    obtain ⟨hlast, hlastType⟩ := h terms.length e (by simp)
    obtain ⟨hfirst, hfirstType⟩ := ih (by omega) fun k e' he' => h k e' (by
      rw [List.getElem?_append_left (List.getElem?_eq_some_iff.1 he').1, he'])
    rw [joined_concat]
    split
    · next hnil =>
      rw [hnil] at hlast hlastType ⊢
      rw [hlast, weigh_succ, List.length_nil, weigh_zero, Nat.zero_add]
      exact ⟨rfl, hlastType⟩
    · have htype : (joined op terms).type.join e.type = typeOf (terms.length + 1) := by
        rw [hfirstType, hlastType, join_typeOf]
      have hdigits := le_digits_typeOf hlength
      have hz := Operator.onNumbers_weigh hop terms.length bits
      constructor
      · rw [calculate_binary hfirst hlast, hz]
        · rw [htype]
          exact IntType.holds_of_lt (weigh_lt _ _) (by omega)
        · rw [htype]
          exact IntType.holds_of_lt (bit_mul_lt _ _) hdigits
        · rw [htype, hz]
          exact IntType.holds_of_lt (weigh_lt _ _) hdigits
      · rw [type_binary hop, htype]

/-- The value of joined cells, each of them put in its place. -/
theorem calculate_joined_cells {op : Operator} (hop : op = .or ∨ op = .add)
    {place : Nat → Expr → Expr} (hlength : cells.length ≤ 64)
    (hplace : ∀ (k : Nat) (e : Expr) (b : Bool), k < 64 → e.calculate s = .ok (b.toNat : Nat) →
      e.type = .int → (place k e).calculate s = .ok (b.toNat * 2 ^ k : Nat) ∧
        (place k e).type = typeOf (k + 1))
    (h : ∀ (k : Nat) (e : Expr), cells[k]? = some e →
      e.calculate s = .ok ((bits k).toNat : Nat) ∧ e.type = .int) :
    (joined op (cells.mapIdx place)).calculate s = .ok (weigh cells.length bits : Nat) := by
  have hterms : ∀ (k : Nat) (e : Expr), (cells.mapIdx place)[k]? = some e →
      e.calculate s = .ok ((bits k).toNat * 2 ^ k : Nat) ∧ e.type = typeOf (k + 1) := by
    intro k e he
    rw [List.getElem?_mapIdx, Option.map_eq_some_iff] at he
    obtain ⟨cell, hcell, rfl⟩ := he
    have hk : k < cells.length := (List.getElem?_eq_some_iff.1 hcell).1
    exact hplace k cell (bits k) (by omega) (h k cell hcell).1 (h k cell hcell).2
  have hvalue := (calculate_joined hop (by simpa using hlength) hterms).1
  rwa [List.length_mapIdx] at hvalue

private theorem calculate_wires
    (h : ∀ k w, bus[k]? = some w → s.get (.wire w) = .ok (.ofBit (bits k)))
    {k : Nat} {e : Expr} (he : (bus.map wire)[k]? = some e) :
    e.calculate s = .ok ((bits k).toNat : Nat) ∧ e.type = .int := by
  rw [List.getElem?_map, Option.map_eq_some_iff] at he
  obtain ⟨w, hw, rfl⟩ := he
  exact ⟨Store.number_eq (h k w hw), rfl⟩

private theorem calculate_shiftLeft {e : Expr} {value count : Nat}
    (he : e.calculate s = .ok (value : Nat))
    (hcount : count < e.type.width) (hz : e.type.Holds (value * 2 ^ count : Nat)) :
    (Expr.shiftLeft e count).calculate s = .ok (value * 2 ^ count : Nat) := by
  rw [calculate, he]
  change (if e.type.width ≤ count then _ else if (value : Int) < 0 then _ else _) = _
  have hcast : (value : Int) * 2 ^ count = (value * 2 ^ count : Nat) := by
    rw [Int.natCast_mul, Int.natCast_pow]
    rfl
  rw [if_neg (by omega), if_neg (by omega), hcast]
  exact IntType.reduce_of_holds hz

/-- The value of a word of cells. From the place of the sign on, bits are widened before they are
shifted. -/
theorem calculate_word_cells (hlength : cells.length ≤ 64)
    (h : ∀ (k : Nat) (e : Expr), cells[k]? = some e →
      e.calculate s = .ok ((bits k).toNat : Nat) ∧ e.type = .int) :
    (word .c cells).calculate s = .ok (weigh cells.length bits : Nat) := by
  refine calculate_joined_cells (.inl rfl) hlength (fun k e b hk he htype => ?_) h
  have hlt := bit_mul_lt b k
  by_cases hzero : k = 0
  · rw [hzero, shifted, if_pos rfl, he, htype, Nat.pow_zero, Nat.mul_one]
    exact ⟨rfl, rfl⟩
  by_cases hwide : 31 ≤ k
  · have hshifted : shifted .c k e = .shiftLeft (.widen e) k := by simp [shifted, hzero, hwide]
    have hwiden : (Expr.widen e).calculate s = .ok (b.toNat : Nat) := by
      rw [calculate, he]
      exact IntType.convert_of_holds (IntType.holds_bit .wide b)
    have htypeOf : typeOf (k + 1) = .wide := if_neg (by omega)
    rw [hshifted, htypeOf]
    exact ⟨calculate_shiftLeft hwiden hk (IntType.holds_of_lt hlt hk), rfl⟩
  · have hshifted : shifted .c k e = .shiftLeft e k := by simp [shifted, hzero, hwide]
    have htypeOf : typeOf (k + 1) = .int := if_pos (by omega)
    rw [hshifted, htypeOf]
    refine ⟨calculate_shiftLeft he ?_ ?_, htype⟩
    · rw [htype]
      change k < 32
      omega
    · rw [htype]
      exact IntType.holds_of_lt hlt (by change k + 1 ≤ 31; omega)

private theorem calculate_word (hlength : bus.length ≤ 64)
    (h : ∀ k w, bus[k]? = some w → s.get (.wire w) = .ok (.ofBit (bits k))) :
    (word .c (bus.map wire)).calculate s = .ok (weigh bus.length bits : Nat) := by
  simpa using calculate_word_cells (by simpa using hlength) fun _ _ => calculate_wires h

/-- The value of packed cells. From the place of the sign on, weights are wide. -/
theorem calculate_packed_cells (hlength : cells.length ≤ 64)
    (h : ∀ (k : Nat) (e : Expr), cells[k]? = some e →
      e.calculate s = .ok ((bits k).toNat : Nat) ∧ e.type = .int) :
    (packed .c cells).calculate s = .ok (weigh cells.length bits : Nat) := by
  refine calculate_joined_cells (.inr rfl) hlength (fun k e b hk he htype => ?_) h
  have hlt := bit_mul_lt b k
  by_cases hzero : k = 0
  · rw [hzero, if_pos rfl, he, htype, Nat.pow_zero, Nat.mul_one]
    exact ⟨rfl, rfl⟩
  -- the weight has the type of the product, and is one of its numbers
  have hweight : ∃ weight : Expr, scaled .c (2 ^ k) e = .binary .times weight e ∧
      weight.calculate s = .ok ((2 ^ k : Nat) : Int) ∧ weight.type = typeOf (k + 1) := by
    by_cases hwide : 31 ≤ k
    · have hpow : 2 ^ 31 ≤ 2 ^ k := Nat.pow_le_pow_right Nat.two_pos hwide
      have hpow' : 2 ^ k < 2 ^ 64 := Nat.pow_lt_pow_right Nat.one_lt_two hk
      have htypeOf : typeOf (k + 1) = .wide := if_neg (by omega)
      exact ⟨.wideLiteral (2 ^ k), by rw [scaled, if_pos ⟨rfl, hpow⟩], if_pos hpow', htypeOf.symm⟩
    · have hpow : 2 ^ k < 2 ^ 31 := Nat.pow_lt_pow_right Nat.one_lt_two (by omega)
      have htypeOf : typeOf (k + 1) = .int := if_pos (by omega)
      have hsmall : ¬(Dialect.c = .c ∧ 2 ^ 31 ≤ 2 ^ k) := by omega
      exact ⟨.literal (2 ^ k), by rw [scaled, if_neg hsmall], if_pos hpow, htypeOf.symm⟩
  obtain ⟨weight, hscaled, hvalue, hweightType⟩ := hweight
  have hjoin : weight.type.join e.type = typeOf (k + 1) := by
    rw [hweightType, htype]
    cases typeOf (k + 1) <;> rfl
  have hdigits : k + 1 ≤ (typeOf (k + 1)).digits := le_digits_typeOf hk
  have htimes : Operator.times.onNumbers ((2 ^ k : Nat) : Int) (b.toNat : Nat) =
      (b.toNat * 2 ^ k : Nat) := by
    rw [Nat.mul_comm]
    exact (Int.natCast_mul _ _).symm
  rw [if_neg hzero, hscaled]
  refine ⟨?_, hjoin⟩
  rw [calculate_binary hvalue he, htimes]
  · rw [hjoin]
    exact IntType.holds_of_lt (Nat.pow_lt_pow_right Nat.one_lt_two k.lt_succ_self) hdigits
  · exact IntType.holds_bit _ b
  · rw [hjoin, htimes]
    exact IntType.holds_of_lt hlt hdigits

private theorem calculate_packed (hlength : bus.length ≤ 64)
    (h : ∀ k w, bus[k]? = some w → s.get (.wire w) = .ok (.ofBit (bits k))) :
    (packed .c (bus.map wire)).calculate s = .ok (weigh bus.length bits : Nat) := by
  simpa using calculate_packed_cells (by simpa using hlength) fun _ _ => calculate_wires h

/-- The value of a bit of a word. -/
theorem calculate_bit {id : Index} {k value width index : Nat}
    (h : s.get (.read id k) = .ok (.ofWord value)) (hwidth : width ≤ 64)
    (hvalue : value < 2 ^ width)
    (hindex : index < width) :
    (bit (.name (.read id k)) index).calculate s = .ok ((value.testBit index).toNat : Nat) := by
  have hname : (Expr.name (.read id k)).calculate s = .ok (value : Nat) := Store.number_eq h
  have hword : (if index = 0 then Expr.name (.read id k)
        else .shiftRight (.name (.read id k)) index).calculate s =
      .ok ((value >>> index : Nat) : Int) := by
    split
    · next hzero =>
      rw [hname, hzero]
      rfl
    · rw [calculate, hname]
      change (if 64 ≤ index then _ else _) = _
      rw [if_neg (by omega)]
      rfl
  have htype : (if index = 0 then Expr.name (.read id k)
      else .shiftRight (.name (.read id k)) index).type = .wide := by
    split <;> rfl
  have hshifted : value >>> index < 2 ^ 64 := by
    have := Nat.shiftRight_le value index
    have := Nat.pow_le_pow_right Nat.two_pos hwidth
    omega
  have hand := Operator.onNumbers_and_one value index
  have hone : (Expr.literal 1).calculate s = .ok 1 := rfl
  rw [bit, calculate_binary hword hone, hand]
  · rw [htype]
    exact IntType.holds_of_lt hshifted (Nat.le_refl _)
  · exact IntType.holds_bit _ true
  · rw [hand]
    exact IntType.holds_bit _ _

end Expr

/-! ### Laws -/

private theorem Store.assign_eq {s : Store} {t : IntType} {dest : Name} {e : Expr} {z : Int}
    (he : e.calculate s = .ok z) (hz : t.Holds z) :
    s.assign t dest e = .ok (s.set dest (.number z)) := by
  rw [assign, he]
  change (t.convert z >>= fun z => _) = _
  rw [IntType.convert_of_holds hz]
  rfl

/-- A choice between bits. -/
theorem Expr.calculate_choose {s : Store} {select whenSet whenClear : Wire} {e a b : Bool}
    (hselect : s.get (.wire select) = .ok (.ofBit e))
    (hset : s.get (.wire whenSet) = .ok (.ofBit a))
    (hclear : s.get (.wire whenClear) = .ok (.ofBit b)) :
    (Expr.choose (wire select) (wire whenSet) (wire whenClear)).calculate s =
      .ok ((if e then a else b).toNat : Nat) := by
  have hcondition : (wire select).calculate s = .ok (e.toNat : Nat) := Store.number_eq hselect
  have ha : (wire whenSet).calculate s = .ok (a.toNat : Nat) := Store.number_eq hset
  have hb : (wire whenClear).calculate s = .ok (b.toNat : Nat) := Store.number_eq hclear
  have htype : (wire whenSet).type.join (wire whenClear).type = .int := rfl
  rw [calculate, htype]
  refine bind_eq_ok.2 ⟨_, hcondition, ?_⟩
  cases e with
  | false =>
    rw [if_neg (by simp), if_neg (by simp)]
    exact bind_eq_ok.2 ⟨_, hb, IntType.convert_of_holds (IntType.holds_bit .int b)⟩
  | true =>
    rw [if_pos (by simp), if_pos rfl]
    exact bind_eq_ok.2 ⟨_, ha, IntType.convert_of_holds (IntType.holds_bit .int a)⟩

/-- A combinational component settles on integers of fixed width. -/
theorem settle_fixedWidth {s : Store} {c : Component} {input : Text → Int} {v : Valuation}
    {b : Bool} (hreads : ∀ w ∈ c.cell.reads, s.get (.wire w) = .ok (.ofBit (v.at w)))
    (hinput : ∀ name, c.cell = .input name →
      s.get (.given name) = .ok (.number (input name)) ∧ IntType.int.Holds (input name))
    (hb : c.cell.drives? input v = some b) :
    c.settle.foldlM Statement.execute s = .ok (s.set (.wire (c.wire 0)) (.ofBit b)) := by
  have hwire : ∀ w ∈ c.cell.reads, (Expr.wire w).calculate s = .ok ((v.at w).toNat : Nat) :=
    fun w hw => Store.number_eq (hreads w hw)
  have hone : (Expr.literal 1).calculate s = .ok 1 := rfl
  have hvalue : ∃ e note, c.settle = [.bind (.wire (c.wire 0)) e note] ∧
      e.calculate s = .ok (b.toNat : Nat) := by
    refine Component.exists_settle hb (P := fun e b => e.calculate s = .ok (b.toNat : Nat))
      ?_ ?_ ?_ ?_ ?_
    · exact fun value => if_pos (Nat.lt_of_lt_of_le (Bool.toNat_lt value) (by decide))
    · intro a ha
      have hnot : Operator.xor.onNumbers 1 ((v.at a).toNat : Nat) = ((!v.at a).toNat : Nat) := by
        cases v.at a <;> rfl
      rw [Expr.calculate_binary hone (hwire a ha) (IntType.holds_bit _ true)
        (IntType.holds_bit _ _) (hnot ▸ IntType.holds_bit _ _), hnot]
    · intro op a ha a' ha'
      have hgate := op.onNumbers_operator (v.at a) (v.at a')
      rw [Expr.calculate_binary (hwire a ha) (hwire a' ha') (IntType.holds_bit _ _)
        (IntType.holds_bit _ _) (hgate ▸ IntType.holds_bit _ _), hgate]
    · intro select hselect whenSet hset whenClear hclear
      exact Expr.calculate_choose (hreads select hselect) (hreads whenSet hset)
        (hreads whenClear hclear)
    · intro name hcell
      obtain ⟨hgiven, hholds⟩ := hinput name hcell
      have hname : (Expr.name (.given name)).calculate s = .ok (input name) :=
        Store.number_eq hgiven
      have hlow := Operator.onNumbers_one_and (input name)
      rw [Expr.calculate_binary hone hname (IntType.holds_bit .int true) hholds
        (hlow ▸ IntType.holds_bit _ _), hlow]
  obtain ⟨e, note, hsettle, he⟩ := hvalue
  rw [hsettle, foldlM_singleton, Statement.execute, Store.assign_eq he (IntType.holds_bit .int b)]
  rfl

private theorem arrayPlace_of_lt {size k : Nat} (h : k < size) : arrayPlace size
    (k : Nat) = .ok k := by
  rw [arrayPlace, if_pos ⟨by omega, by omega⟩, Int.toNat_natCast]

private theorem Store.contains_of_get {s : Store} {m : Name} {c : Content} (h : s.get m = .ok c)
    (hc : c ≠ .procedure) : s.contents.contains m.text = true := by
  unfold get at h
  split at h
  · next hsome =>
    rw [Std.HashMap.contains_eq_isSome_getElem?, hsome]
    rfl
  · split at h
    · cases h
      exact absurd rfl hc
    · cases h

/-- The write of a memory port on integers of fixed width. -/
theorem execute_write {s : Store} {id : Index} {k : Nat} {port : MemoryPort} {e : Bool}
    {word address size : Nat} {cells : List Content}
    (henable : s.get (.wire port.enable) = .ok (.ofBit e))
    (hdata : s.get (.data id k) = .ok (.ofWord word))
    (haddress : s.get (.address id k) = .ok (.ofWord address))
    (hstorage : s.get (.storage id) = .ok (.table size cells)) (hlt : address < size) :
    (Component.portWrite id k port).execute s =
      .ok (if e then
          s.set (.storage id) (.table size (Content.setCell (.ofWord word) address cells))
        else s) := by
  rw [Component.portWrite, Statement.execute, Store.number_eq henable, Store.number_eq hdata,
    Store.array_eq hstorage, Store.number_eq haddress]
  cases e with
  | false => rfl
  | true =>
    refine bind_eq_ok.2 ⟨_, rfl, ?_⟩
    rw [if_neg (by simp)]
    refine bind_eq_ok.2 ⟨_, rfl, bind_eq_ok.2 ⟨_, rfl, bind_eq_ok.2 ⟨_, rfl, ?_⟩⟩⟩
    exact bind_eq_ok.2 ⟨_, arrayPlace_of_lt hlt, rfl⟩

private theorem calculate_read {s : Store} {id : Index} {k : Nat} {word address size : Nat}
    {cells : List Content} (haddress : s.get (.address id k) = .ok (.ofWord address))
    (hstorage : s.get (.storage id) = .ok (.table size cells)) (hlt : address < size)
    (hword : cells.getD address (.number 0) = .ofWord word) :
    (Expr.element (.storage id) (.address id k)).calculate s = .ok (word : Nat) := by
  rw [Expr.calculate, Store.array_eq hstorage, Store.number_eq haddress]
  refine bind_eq_ok.2 ⟨_, rfl, bind_eq_ok.2 ⟨_, rfl, ?_⟩⟩
  refine bind_eq_ok.2 ⟨_, arrayPlace_of_lt hlt, ?_⟩
  rw [hword]
  rfl

private theorem Store.get_within {s t : Store} {m : Name} (h : s.contents.contains m.text = true) :
    (t.within s).get m = t.get m := by
  have hcontents : (t.within s).contents[m.text]? = t.contents[m.text]? := by
    change (t.contents.filter fun text _ => s.contents.contains text)[m.text]? = _
    rw [Std.HashMap.getElem?_filter', h]
    cases t.contents[m.text]? <;> rfl
  unfold get
  rw [hcontents]
  rfl

private theorem Procedure.length_outputs_le (p : Procedure) (h : p.outputs.length ≤ 64) :
    p.outputs.length ≤ p.resultWidth := by
  unfold resultWidth
  split
  · assumption
  · exact h

/-- Integers of fixed width hold words of up to 64 bits and accept arguments of type `int`. -/
theorem lawful_fixedWidth : Engine.fixedWidth.Lawful .c (· ≤ 64) IntType.int.Holds where
  settle hreads hinput hb := settle_fixedWidth hreads hinput hb
  follow {s id data b} hdata :=
    Store.assign_eq (Store.number_eq hdata) (IntType.holds_bit .int b)
  choose {s id enable data old e b o} henable hdata hold :=
    Store.assign_eq (Expr.calculate_choose henable hdata hold) (IntType.holds_bit .int _)
  word {s dest bus bit} hfits hbits :=
    Store.assign_eq (Expr.calculate_word hfits hbits) (IntType.holds_of_lt (weigh_lt _ _) hfits)
  write henable hdata haddress hstorage hlt := execute_write henable hdata haddress hstorage hlt
  read haddress hstorage hlt hword hfits hwidth :=
    Store.assign_eq (calculate_read haddress hstorage hlt hword) (IntType.holds_of_lt hwidth hfits)
  commit {s w id b} hnext := Store.assign_eq (Store.number_eq hnext) (IntType.holds_bit .int b)
  pick {s w id k word width index} hread hfits hwidth hindex :=
    Store.assign_eq (Expr.calculate_bit hread hfits hwidth hindex) (IntType.holds_bit .int _)
  flag {s w b} hflag := by
    change (s.number _).map _ = _
    rw [Store.number_eq hflag]
    cases b <;> rfl
  result {s p bus bit} hresult hlength hlimit hbits := by
    have hwidth : bus.length ≤ p.resultWidth := hlength ▸ p.length_outputs_le (hlength ▸ hlimit rfl)
    have hlt : weigh bus.length bit < 2 ^ p.resultWidth :=
      Nat.lt_of_lt_of_le (weigh_lt _ _) (Nat.pow_le_pow_right Nat.two_pos hwidth)
    change (p.result.calculate s).map _ = _
    rw [hresult, Expr.calculate_packed (hlimit rfl) hbits]
    change Except.ok (Content.number ((weigh bus.length bit : Nat) % 2 ^ p.resultWidth)) = _
    rw [Int.emod_eq_of_lt (by omega) (by exact_mod_cast hlt)]
    rfl
  leave hs hc ht := (Store.get_within (Store.contains_of_get hs hc)).trans ht

/-! ### Whole runs -/

namespace Procedure

/-- The names that a procedure introduces, as they are spelled. -/
def spellings (p : Procedure) : List Text := p.name :: p.declared.map Name.text

/-- Checks that a procedure introduces no name that the implementation defines by itself. -/
def checkTranslated (p : Procedure) (predefined : List Text) : Except Fault Unit :=
  if p.spellings.any predefined.contains then .error .predefinedName else .ok ()

/-- So many turns on integers of fixed width, by an implementation that defines some names. -/
def execute (p : Procedure) (predefined : List Text) (input : Text → Int) (k : Nat) :
    Except Fault Progress := do
  p.checkTranslated predefined
  Engine.fixedWidth.turns p (← p.enter input) k

private theorem checkTranslated_eq_ok {p : Procedure} {predefined : List Text} :
    p.checkTranslated predefined = .ok () ↔ ∀ x ∈ p.spellings, x ∉ predefined := by
  unfold checkTranslated
  split
  · next h =>
    obtain ⟨x, hx, htaken⟩ := List.any_eq_true.mp h
    exact iff_of_false (by simp) fun hfree => hfree x hx (List.contains_iff_mem.mp htaken)
  · next h =>
    exact iff_of_true rfl fun x hx htaken =>
      h (List.any_eq_true.mpr ⟨x, hx, List.contains_iff_mem.mpr htaken⟩)

private theorem foldlM_pass {input : Text → Int} {names : List Text}
    (h : ∀ name ∈ names, IntType.int.Holds (input name)) (s : Store) :
    names.foldlM (Store.pass input) s = .ok (names.foldl (Store.give input) s) := by
  have hrun : ∃ t, names.foldlM (Store.pass input) s = .ok t ∧
      t = names.foldl (Store.give input) s := by
    refine foldlM_ok (P := fun before t => t = before.foldl (Store.give input) s) rfl
      fun before name after t hsplit ht => ?_
    have hname : IntType.int.Holds (input name) := h name (by rw [hsplit]; simp)
    refine ⟨t.give input name, ?_, ?_⟩
    · rw [Store.pass, IntType.convert_of_holds hname]
      rfl
    · rw [List.foldl_append, ht]
      rfl
  obtain ⟨t, ht, rfl⟩ := hrun
  exact ht

/-- Initial words of up to 64 bits are declared as they are. -/
theorem foldl_execute {ds : List Declaration}
    (h : ∀ m shape, .storage m shape ∈ ds → shape.dataWidth ≤ 64) (s : Store) :
    ds.foldl Declaration.execute s = ds.foldl Declaration.place s := by
  induction ds generalizing s with
  | nil => rfl
  | cons first rest ih =>
    rw [List.foldl_cons, List.foldl_cons, ih fun m shape hm => h m shape (.tail _ hm)]
    cases first with
    | cells names value => rfl
    | storage name shape =>
      have hpow := Nat.pow_le_pow_right Nat.two_pos (h name shape (.head _))
      have hwords : shape.init.map (fun word => Content.ofWord (word % 2 ^ 64)) =
          shape.init.map .ofWord := by
        refine List.map_congr_left fun word hword => ?_
        rw [Nat.mod_eq_of_lt (Nat.lt_of_lt_of_le (shape.init_lt word hword) hpow)]
      rw [Declaration.execute, Declaration.place, Dialect.C.ArrayDeclaration.ofShape, hwords]

private theorem enter_eq {p : Procedure} {input : Text → Int}
    (hinput : ∀ name ∈ p.inputs, IntType.int.Holds (input name))
    (hstorage : ∀ m shape, .storage m shape ∈ p.declarations → shape.dataWidth ≤ 64) :
    p.enter input = .ok (p.opening input) := by
  rw [enter, foldlM_pass hinput]
  change Except.ok (p.declarations.foldl Declaration.execute _) = _
  rw [foldl_execute hstorage]
  rfl

end Procedure

namespace Netlist

/-- The storage of a scheduled netlist has the shape of a memory. -/
theorem exists_shape [Machine] {n : Netlist} {s : Schedule} (hs : n.schedule = .ok s) {m : Name}
    {shape : MemoryShape} (hm : .storage m shape ∈ s.sequential.flatMap Component.declare) :
    ∃ i ∈ n.instances, MemoryShape.ofInstance i = .ok shape := by
  obtain ⟨c, hc, hm⟩ := List.mem_flatMap.1 hm
  obtain ⟨i, hi, hic⟩ := exists_element (schedule_ok hs).2.1 (Compiled.mem_sequential.1 hc).1
  have hfor := (Component.ofInstance_ok hic).2.2.1
  unfold Component.declare at hm
  split at hm
  · simp at hm
  · next hcell =>
    simp only [List.mem_cons, reduceCtorEq, false_or, List.not_mem_nil, or_false,
      Declaration.storage.injEq] at hm
    rw [hcell, ← hm.2] at hfor
    exact ⟨i, hi, hfor.of_memory.2.1⟩
  · cases hm

/-- A run that is where the netlist is after any number of turns returns what the netlist returns.
-/
theorem returned_iff_reaches [Machine] {n : Netlist} {s : Schedule} (hs : n.schedule = .ok s)
    {input : Text → Int} {exit : Wire} {names : List Text} {ε : Type}
    {run : Nat → Except ε Progress}
    (h : ∀ k stage, n.Reaches input exit k stage →
      ∃ here, run k = .ok here ∧ here.Agrees n names input stage) (k : Nat) (z : Int) :
    run k = .ok (.returned (.number z)) ↔
      ∃ result : Nat, n.Reaches input exit k (.returned result) ∧ z = result := by
  constructor
  · intro hrun
    obtain ⟨stage, hstage⟩ := exists_reaches hs input exit k
    obtain ⟨here, hhere, hagrees⟩ := h k stage hstage
    obtain rfl := Except.ok.inj (hhere.symm.trans hrun)
    cases stage with
    | running => cases hagrees
    | returned result => exact ⟨result, hstage, Content.number.inj hagrees⟩
  · rintro ⟨result, hstage, rfl⟩
    obtain ⟨here, hhere, hagrees⟩ := h k _ hstage
    cases here with
    | running => cases hagrees
    | returned c =>
      obtain rfl : c = .ofWord result := hagrees
      exact hhere

/-- A compiled procedure whose memories and arguments fit is in C, after any number of turns, where
its netlist is after as many cycles. -/
theorem Compiled.execute_eq [Machine] {n : Netlist} {exit : Wire} {s : Schedule}
    (h : n.Compiled .c exit s) {title : Text} {predefined : List Text}
    (hnames : ∀ x ∈ (s.procedure .c title n.outputs exit).spellings, x ∉ predefined)
    (hwidths : ∀ i ∈ n.instances, ∀ shape, MemoryShape.ofInstance i = .ok shape →
      shape.dataWidth ≤ 64 ∧ shape.addressWidth ≤ 64)
    {input : Text → Int} (hinput : ∀ x ∈ s.inputs, IntType.int.Holds (input x)) {k : Nat}
    {stage : Stage} (hstage : n.Reaches input exit k stage) :
    ∃ here, (s.procedure .c title n.outputs exit).execute predefined input k = .ok here ∧
      here.Agrees n s.inputs input stage := by
  obtain ⟨here, hturns, hagrees⟩ := turns_agree lawful_fixedWidth h hwidths hinput title
    (shows_opening h title input) hstage
  have henter : (s.procedure .c title n.outputs exit).enter input =
      .ok ((s.procedure .c title n.outputs exit).opening input) := by
    refine Procedure.enter_eq hinput fun m shape hm => ?_
    obtain ⟨i, hi, hshape⟩ := exists_shape h.schedule hm
    exact (hwidths i hi shape hshape).1
  refine ⟨here, bind_eq_ok.2 ⟨(), Procedure.checkTranslated_eq_ok.mpr hnames, ?_⟩, hagrees⟩
  exact bind_eq_ok.2 ⟨_, henter, hturns⟩

/-- Both procedures of a netlist return alike. The one in C is translated and meets no fault, and
after any number of turns it has returned a number exactly if the one on unbounded integers can be
started and has returned the same number. -/
def ReturnsAlike [Machine] (n : Netlist) (predefined : List Text) (name done : Value)
    (input : Text → Int) : Prop :=
  ∃ pc, n.compile .c name done = .ok pc ∧
    (∀ k, ∃ here, pc.execute predefined input k = .ok here) ∧
    ∀ k z, pc.execute predefined input k = .ok (.returned (.number z)) ↔
      ∃ p s, n.executable name done = .ok p ∧
        p.start (p.inputs.map fun x => .number (input x)) = .ok s ∧
        p.turns k (.running s) = .ok (.returned (.number z))

/-- When a netlist whose memories have data and addresses of up to 64 bits runs in C as it runs on
unbounded integers, on all arguments of type `int`. Both procedures return alike exactly if none of
the names is predefined in C, and the procedure on unbounded integers is ready, unless the netlist
never returns. Then no turn meets a fault, and after any number of turns both have returned the same
number, or both have not returned. Arrays of all lengths are taken to be available in C; on
unbounded integers the start depends on it. -/
theorem dialects_agree [Machine] (n : Netlist) (hn : n.IsLoaded) (predefined : List Text)
    (name done : Value) (pc pp : Procedure)
    (hpc : n.compile .c name done = .ok pc) (hpp : n.compile .python name done = .ok pp)
    (hwidths : ∀ i ∈ n.instances, ∀ shape, MemoryShape.ofInstance i = .ok shape →
      shape.dataWidth ≤ 64 ∧ shape.addressWidth ≤ 64)
    (input : Text → Int) (hinput : ∀ x ∈ pc.inputs, IntType.int.Holds (input x)) :
    pc.inputs = pp.inputs ∧ ∃ exit, n.output done = .ok exit ∧
      (n.ReturnsAlike predefined name done input ↔
        (∀ x ∈ pc.spellings, x ∉ predefined) ∧
          (pp.IsReady ∨ ∀ k result, ¬n.Reaches input exit k (.returned result))) ∧
      ((∀ x ∈ pc.spellings, x ∉ predefined) → pp.IsReady →
        ∃ s, n.executable name done = .ok pp ∧
          pp.start (pp.inputs.map fun x => .number (input x)) = .ok s ∧
          ∀ k,
            (∃ z : Int, pc.execute predefined input k = .ok (.returned (.number z)) ∧
              pp.turns k (.running s) = .ok (.returned (.number z))) ∨
            ∃ t u, pc.execute predefined input k = .ok (.running t) ∧
              pp.turns k (.running s) = .ok (.running u)) := by
  obtain ⟨s, exit, title, hexit, hc, hcEq⟩ := compile_ok hpc hn.isNumbered
  obtain ⟨s', exit', title', hexit', hp, hpEq⟩ := compile_ok hpp hn.isNumbered
  obtain rfl := Except.ok.inj (hexit.symm.trans hexit')
  obtain rfl := Except.ok.inj (hc.schedule.symm.trans hp.schedule)
  have hinputs : ∀ x ∈ s.inputs, IntType.int.Holds (input x) := by
    rw [hcEq] at hinput
    exact hinput
  -- both procedures are where the netlist is
  have hcRuns : (∀ x ∈ pc.spellings, x ∉ predefined) → ∀ k stage, n.Reaches input exit k stage →
      ∃ here, pc.execute predefined input k = .ok here ∧ here.Agrees n s.inputs input stage := by
    intro hnames k stage hstage
    subst hcEq
    exact hc.execute_eq hnames hwidths hinputs hstage
  have hpRuns : ∀ k stage, n.Reaches input exit k stage →
      ∃ here, pp.turns k (.running (pp.opening input)) = .ok here ∧
        here.Agrees n s.inputs input stage := by
    intro k stage hstage
    subst hpEq
    exact hp.turns_opening title' hstage
  refine ⟨by rw [hcEq, hpEq, Schedule.procedure, Schedule.procedure], exit, hexit,
    ⟨?_, ?_⟩, fun hnames hready => ?_⟩
  · rintro ⟨q, hq, hsafe, hsame⟩
    obtain rfl := Except.ok.inj (hpc.symm.trans hq)
    obtain ⟨here, hhere⟩ := hsafe 0
    obtain ⟨⟨⟩, htranslated, -⟩ := bind_eq_ok.1 hhere
    have hnames := Procedure.checkTranslated_eq_ok.mp htranslated
    refine ⟨hnames, or_iff_not_imp_right.mpr fun hreturns => ?_⟩
    push Not at hreturns
    obtain ⟨k, result, hresult⟩ := hreturns
    obtain ⟨p, t, hp, ht, -⟩ := (hsame k result).mp
      ((returned_iff_reaches hc.schedule (hcRuns hnames) k result).mpr ⟨result, hresult, rfl⟩)
    exact (isReady_of_start hpp hp ht).2.2
  · rintro ⟨hnames, hready⟩
    have hcReturns := returned_iff_reaches hc.schedule (hcRuns hnames)
    refine ⟨pc, hpc, fun k => ?_, fun k z => ?_⟩
    · obtain ⟨stage, hstage⟩ := exists_reaches hc.schedule input exit k
      obtain ⟨here, hhere, -⟩ := hcRuns hnames k stage hstage
      exact ⟨here, hhere⟩
    rw [hcReturns, ← returned_iff_reaches hc.schedule hpRuns]
    constructor
    · intro hreturned
      have hready : pp.IsReady := by
        refine hready.resolve_right fun hnever => ?_
        obtain ⟨result, hresult, -⟩ :=
          (returned_iff_reaches hc.schedule hpRuns k z).mp hreturned
        exact hnever k result hresult
      obtain ⟨hexecutable, hstart⟩ := start_of_isReady hpp hready input
      exact ⟨pp, _, hexecutable, hstart, hreturned⟩
    · rintro ⟨p, t, hp, ht, hreturned⟩
      obtain ⟨rfl, rfl, -⟩ := isReady_of_start hpp hp ht
      exact hreturned
  · obtain ⟨hexecutable, hstart⟩ := start_of_isReady hpp hready input
    refine ⟨_, hexecutable, hstart, fun k => ?_⟩
    obtain ⟨stage, hstage⟩ := exists_reaches hc.schedule input exit k
    obtain ⟨here, hhere, hagrees⟩ := hcRuns hnames k stage hstage
    obtain ⟨here', hhere', hagrees'⟩ := hpRuns k stage hstage
    rw [hhere, hhere']
    cases stage with
    | returned result =>
      cases here with
      | running => cases hagrees
      | returned c =>
        cases here' with
        | running => cases hagrees'
        | returned c' =>
          cases hagrees
          cases hagrees'
          exact .inl ⟨result, rfl, rfl⟩
    | running σ =>
      cases here with
      | returned => cases hagrees
      | running t =>
        cases here' with
        | returned => cases hagrees'
        | running u => exact .inr ⟨t, u, rfl, rfl⟩

/-- A memory that writes a set bit where its own output points to, and is the exit flag. -/
def echo : Netlist :=
  withFlag
    [⟨.number 0, "high", [], [], .number 1⟩,
      ⟨.number 1, "ram", [("dwidth", "1"), ("awidth", "1"), ("init", "[0]")],
        [⟨.number 0, .number 0⟩, ⟨.number 0, .number 0⟩, ⟨.number 1, .number 0⟩], .number 1⟩]
    ⟨.number 1, .number 0⟩ (by decide)

open Desktop in
/-- Both procedures of a small memory return alike, where C defines some names by itself. -/
theorem echo_dialects_agree :
    echo.IsLoaded ∧ ∃ pc pp, echo.compile .c (.text "top") (.text "done") = .ok pc ∧
      echo.compile .python (.text "top") (.text "done") = .ok pp ∧
      (∀ i ∈ echo.instances, ∀ shape, MemoryShape.ofInstance i = .ok shape →
        shape.dataWidth ≤ 64 ∧ shape.addressWidth ≤ 64) ∧ pp.IsReady ∧
      echo.ReturnsAlike (["__FILE__", "__LINE__", "__func__"].map Text.ofString) (.text "top")
        (.text "done") fun _ => 1 := by
  have hloaded : echo.IsLoaded := .inl ⟨echo.toValue, by cbv⟩
  have hschedule : echo.schedule = .ok
      ⟨[⟨.number 0, .high, .constant true⟩,
          ⟨.number 1, .ram, .memory ⟨1, 1, [0], false, by decide, by decide, by decide⟩
            [⟨⟨.number 0, .number 0⟩, [⟨.number 0, .number 0⟩], [⟨.number 1, .number 0⟩],
              [⟨.number 1, .number 0⟩]⟩]⟩],
        [⟨.number 0, .high, .constant true⟩]⟩ := by
    cbv
  obtain ⟨pc, hpc, htranslated⟩ :
      ∃ p, echo.compile .c (.text "top") (.text "done") = .ok p ∧
        p.checkTranslated (["__FILE__", "__LINE__", "__func__"].map Text.ofString) = .ok () :=
    ⟨_, by rw [compile, hschedule]; rfl, by rfl⟩
  obtain ⟨pp, hpp, hrunnable, hstorages⟩ :
      ∃ p, echo.compile .python (.text "top") (.text "done") = .ok p ∧
        p.checkRunnable = .ok () ∧ p.checkStorages = .ok () :=
    ⟨_, by rw [compile, hschedule]; rfl, rfl, rfl⟩
  have hready : pp.IsReady := Procedure.isReady_iff.mpr ⟨hrunnable, hstorages⟩
  have hwidths : ∀ i ∈ echo.instances, ∀ shape, MemoryShape.ofInstance i = .ok shape →
      shape.dataWidth ≤ 64 ∧ shape.addressWidth ≤ 64 := by
    intro i hi shape hshape
    simp only [echo, instances_withFlag, List.mem_cons, List.not_mem_nil, or_false] at hi
    rcases hi with rfl | rfl
    · cases hshape
    · have hread : MemoryShape.ofInstance ⟨.number 1, "ram",
          [("dwidth", "1"), ("awidth", "1"), ("init", "[0]")],
          [⟨.number 0, .number 0⟩, ⟨.number 0, .number 0⟩, ⟨.number 1, .number 0⟩], .number 1⟩ =
          .ok ⟨1, 1, [0], false, by decide, by decide, by decide⟩ := by rfl
      cases hread.symm.trans hshape
      decide
  obtain ⟨-, exit, -, halike, -⟩ := dialects_agree echo hloaded
    (["__FILE__", "__LINE__", "__func__"].map Text.ofString) _ _ pc pp hpc hpp hwidths (fun _ => 1)
    fun _ _ => by decide
  exact ⟨hloaded, pc, pp, hpc, hpp, hwidths, hready,
    halike.mpr ⟨Procedure.checkTranslated_eq_ok.mp htranslated, .inl hready⟩⟩

/-- An input that has the name that nothing can be bound to, and is the exit flag. -/
def forbiddenInput : Netlist :=
  withFlag [⟨.number 0, "name", [("name", "__debug__")], [], .number 1⟩] ⟨.number 0, .number 0⟩
    (by decide)

open Desktop in
/-- In C the procedure returns in its first turn. On unbounded integers it is not even translated.
-/
theorem forbiddenInput_differs :
    forbiddenInput.IsLoaded ∧
      (∃ pc, forbiddenInput.compile .c (.text "top") (.text "done") = .ok pc ∧
        pc.execute [] (fun _ => 1) 1 = .ok (.returned (.number 1))) ∧
      (∃ pp, forbiddenInput.compile .python (.text "top") (.text "done") = .ok pp) ∧
      forbiddenInput.executable (.text "top") (.text "done") =
        .error (.forbiddenName "__debug__") ∧
      ¬forbiddenInput.ReturnsAlike [] (.text "top") (.text "done") fun _ => 1 := by
  have hloaded : forbiddenInput.IsLoaded := .inl ⟨forbiddenInput.toValue, by cbv⟩
  have hschedule : forbiddenInput.schedule = .ok
      ⟨[⟨.number 0, .name, .input "__debug__"⟩], [⟨.number 0, .name, .input "__debug__"⟩]⟩ := by
    cbv
  obtain ⟨pc, hpc⟩ : ∃ p, forbiddenInput.compile .c (.text "top") (.text "done") = .ok p :=
    ⟨_, by rw [compile, hschedule]; rfl⟩
  obtain ⟨pp, hpp, hrunnable⟩ :
      ∃ p, forbiddenInput.compile .python (.text "top") (.text "done") = .ok p ∧
        p.checkRunnable = .error (.forbiddenName "__debug__") :=
    ⟨_, by rw [compile, hschedule]; rfl, rfl⟩
  have hexecutable : forbiddenInput.executable (.text "top") (.text "done") =
      .error (.forbiddenName "__debug__") := by
    rw [executable_eq hpp, hrunnable]
    rfl
  have hreturned : pc.execute [] (fun _ => 1) 1 = .ok (.returned (.number 1)) := by
    obtain ⟨s, exit, title, hexit, hc, rfl⟩ := compile_ok hpc hloaded.isNumbered
    obtain rfl : exit = ⟨.number 0, .number 0⟩ := (Except.ok.inj hexit).symm
    obtain ⟨v, hv⟩ := exists_settles hschedule (fun _ => 1) forbiddenInput.initial
    have hflag : v.at ⟨.number 0, .number 0⟩ = true :=
      (Option.some.inj (hv.gates _ (.head _) rfl)).symm
    have hwidths : ∀ i ∈ forbiddenInput.instances, ∀ shape, MemoryShape.ofInstance i = .ok shape →
        shape.dataWidth ≤ 64 ∧ shape.addressWidth ≤ 64 := by
      intro i hi shape hshape
      rw [forbiddenInput, instances_withFlag, List.mem_singleton] at hi
      subst hi
      cases hshape
    have hruns : ∀ k stage, forbiddenInput.Reaches (fun _ => 1) ⟨.number 0, .number 0⟩ k stage →
        ∃ here, (s.procedure .c title forbiddenInput.outputs ⟨.number 0, .number 0⟩).execute []
            (fun _ => 1) k = .ok here ∧ here.Agrees forbiddenInput s.inputs (fun _ => 1) stage :=
      fun k stage => hc.execute_eq (by simp) hwidths fun _ _ => by decide
    exact (returned_iff_reaches hc.schedule hruns 1 1).mpr
      ⟨1, .leave_flag rfl .start hv hflag, rfl⟩
  refine ⟨hloaded, ⟨pc, hpc, hreturned⟩, ⟨pp, hpp⟩, hexecutable, ?_⟩
  rintro ⟨q, hq, -, hsame⟩
  obtain rfl := Except.ok.inj (hpc.symm.trans hq)
  obtain ⟨p, s, hp, -⟩ := (hsame 1 1).mp hreturned
  cases hexecutable.symm.trans hp

end Netlist

end Latchwork
