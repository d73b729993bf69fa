import Latchwork.Dialect.C
import Latchwork.Proofs.BusOrder
import Latchwork.Proofs.FixedWidth
import Latchwork.Proofs.Formula

/-!
# Packing in fixed width

The expressions that pack bits are read back from their C text and calculated in integers of 32 and
64 bits. Up to 64 cells they have the value that the bits have by their weights: no sum leaves the
type that its terms have up to there, no shift reaches the width of what it shifts, and the value
fits the result type that the header declares.
-/

namespace Latchwork

namespace Dialect.C

/-- The number of bits of an unsigned type. -/
def typeWidth? : String → Option Nat
  | "unsigned" => some 32
  | "unsigned long long" => some 64
  | _ => none

/-- The number of bits of a result: the narrower type is taken as long as it has a bit for each
output. -/
def resultWidth (outputCount : Nat) : Nat := if outputCount ≤ 32 then 32 else 64

private theorem typeWidth?_resultType (p : Procedure) :
    typeWidth? (resultType p) = some (resultWidth p.outputs.length) := by
  unfold resultType resultWidth
  split <;> rfl

private theorem le_resultWidth {outputCount : Nat} (h : outputCount ≤ 64) :
    outputCount ≤ resultWidth outputCount := by
  unfold resultWidth
  split <;> assumption

end Dialect.C

namespace Expr

variable {s : Store} {bits : Nat → Bool} {cells : List Wire}

private theorem calculate_spelled_cells
    (h : ∀ k w, cells[k]? = some w → s.get (.wire w) = .ok (.ofBit (bits k))) (k : Nat) (e : Expr)
    (he : (cells.map fun w => Expr.name (.given w.name))[k]? = some e) :
    e.calculate s = .ok ((bits k).toNat : Nat) ∧ e.type = .int := by
  rw [List.getElem?_map, Option.map_eq_some_iff] at he
  obtain ⟨w, hw, rfl⟩ := he
  have hget : s.get (.given w.name) = .ok (.ofBit (bits k)) := h k w hw
  exact ⟨Store.number_eq hget, rfl⟩

/-- Up to 64 cells that hold bits are packed exactly. The result expression of a procedure, read
from its text, has the value of the bits by their weights, without an overflow, and the declared
result type can hold it. The expression of a word has the same value, without a shift that is too
wide. -/
theorem packing_exact (cells : List Wire) (hlength : cells.length ≤ 64) (s : Store)
    (bits : Nat → Bool)
    (hbits : ∀ k w, cells[k]? = some w → s.get (.wire w) = .ok (.ofBit (bits k))) :
    (∀ p : Procedure, p.result = .packed .c (cells.map .wire) →
      p.outputs.length = cells.length →
      ∃ e, read? .c (p.result.text .c) = some e ∧
        e.calculate s = .ok (weigh cells.length bits : Nat) ∧
        Dialect.C.typeWidth? (Dialect.C.resultType p) =
          some (Dialect.C.resultWidth cells.length) ∧
        weigh cells.length bits < 2 ^ Dialect.C.resultWidth cells.length) ∧
      ∃ e, read? .c ((word .c (cells.map .wire)).text .c) = some e ∧
        e.calculate s = .ok (weigh cells.length bits : Nat) := by
  have hnames : cells.map Expr.wire = (cells.map Name.wire).map .name := by
    rw [List.map_map]
    rfl
  have hidentifiers : ∀ m ∈ cells.map Name.wire, m.text.isIdentifier = true := by
    intro m hm
    obtain ⟨w, -, rfl⟩ := List.mem_map.1 hm
    exact w.isIdentifier_name
  have hheads : ∀ m ∈ cells.map Name.wire, m.text.points.head? ≠ some (.char 'u') := by
    intro m hm
    obtain ⟨w, -, rfl⟩ := List.mem_map.1 hm
    rw [Name.text, w.head?_name]
    decide
  have hspelled : (cells.map Name.wire).map (fun m => Expr.name (.given m.text)) =
      cells.map fun w => .name (.given w.name) := by
    rw [List.map_map]
    rfl
  have hsum := read?_packed (d := .c) hidentifiers
  have hword := read?_word (d := .c) hidentifiers hheads
  rw [← hnames, hspelled] at hsum hword
  have hcells := calculate_spelled_cells hbits
  have hcount : (cells.map fun w => Expr.name (.given w.name)).length ≤ 64 := by simpa using hlength
  constructor
  · intro p hresult houtputs
    have hwidth := Dialect.C.typeWidth?_resultType p
    have hfits : weigh cells.length bits < 2 ^ Dialect.C.resultWidth cells.length :=
      (weigh_lt _ _).trans_le (Nat.pow_le_pow_right Nat.two_pos (Dialect.C.le_resultWidth hlength))
    rw [houtputs] at hwidth
    rw [hresult]
    exact ⟨_, hsum, by simpa using calculate_packed_cells hcount hcells, hwidth, hfits⟩
  · exact ⟨_, hword, by simpa using calculate_word_cells hcount hcells⟩

/-- The only wire of a store in which it is set. -/
def loneWire : Wire := ⟨.number 0, .number 0⟩

/-- A store in which one wire is set. -/
def loneStore : Store := Store.set ⟨"top", ∅⟩ (.wire loneWire) (.ofBit true)

/-- A procedure that returns a wire sixty-four times. -/
def loneProcedure : Procedure :=
  Schedule.procedure ⟨[], []⟩ .c "top" (List.replicate 64 ("a", loneWire)) loneWire

/-- Sixty-four bits that are all set make the greatest number of the wider type. -/
theorem packing_exact_full :
    (∃ e, read? .c (loneProcedure.result.text .c) = some e ∧
      e.calculate loneStore = .ok ((2 ^ 64 - 1 : Nat) : Int)) ∧
      ∃ e, read? .c ((word .c (List.replicate 64 (.wire loneWire))).text .c) = some e ∧
        e.calculate loneStore = .ok ((2 ^ 64 - 1 : Nat) : Int) := by
  have hbits : ∀ (k : Nat) (w : Wire), (List.replicate 64 loneWire)[k]? = some w →
      loneStore.get (.wire w) = .ok (.ofBit ((fun _ => true) k)) := by
    intro k w hw
    rw [List.eq_of_mem_replicate (List.mem_of_getElem? hw), loneStore, Store.get_set_self]
  obtain ⟨hresult, e, hread, hvalue⟩ :=
    packing_exact (List.replicate 64 loneWire) (by simp) loneStore (fun _ => true) hbits
  obtain ⟨sum, hsum, htotal, -, -⟩ := hresult loneProcedure (by
    simp [loneProcedure, Schedule.procedure]) (by simp [loneProcedure, Schedule.procedure])
  have hweigh : weigh 64 (fun _ => true) = 2 ^ 64 - 1 := by decide
  rw [List.map_replicate] at hread
  rw [List.length_replicate, hweigh] at htotal hvalue
  exact ⟨⟨sum, hsum, htotal⟩, e, hread, hvalue⟩

end Expr

end Latchwork
