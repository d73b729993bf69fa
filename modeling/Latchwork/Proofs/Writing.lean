import Latchwork.Procedure.Compile
import Latchwork.Proofs.Outcome

/-!
# What can be written

A text with numerals in it can be written if all its numbers are below the limit on digits, and
otherwise fails in one way. A power of two is judged by its exponent, which is the same thing: the
first power with too many digits is `2 ^ digitBits`.
-/

namespace Latchwork

open Outcome

namespace Numeral

variable {α : Type} {numbers : List Nat} {text result : α}

/-- A text is written if none of its numbers is too long. -/
theorem written_eq_ok :
    written numbers text = .ok result ↔ (∀ k ∈ numbers, isTooLong k = false) ∧ text = result := by
  unfold written
  split
  · next hlong =>
    obtain ⟨k, hk, hlong⟩ := List.any_eq_true.1 hlong
    constructor
    · intro h
      cases h
    · rintro ⟨hshort, -⟩
      cases hlong.symm.trans (hshort k hk)
  · next hshort =>
    simp only [List.any_eq_true, not_exists, not_and, Bool.not_eq_true] at hshort
    rw [Except.ok.injEq]
    exact ⟨fun h => ⟨hshort, h⟩, fun h => h.2⟩

/-- A text is not written if one of its numbers is too long, and that is the error. -/
theorem written_eq_error {e : Error} :
    written numbers text = .error e ↔
      (∃ k ∈ numbers, isTooLong k = true) ∧ e = .numeralTooLong := by
  unfold written
  split
  · next hlong =>
    rw [Except.error.injEq, eq_comm]
    exact ⟨fun h => ⟨List.any_eq_true.1 hlong, h⟩, fun h => h.2⟩
  · next hshort =>
    constructor
    · intro h
      cases h
    · rintro ⟨hlong, -⟩
      exact absurd (List.any_eq_true.2 hlong) hshort

/-- Whether a text can be written depends on its numbers only as far as one of them is too long. -/
theorem written_congr {others : List Nat}
    (h : (∀ k ∈ numbers, isTooLong k = false) ↔ ∀ k ∈ others, isTooLong k = false) :
    written numbers text = written others text := by
  have hany : numbers.any isTooLong = others.any isTooLong := by
    rw [← Bool.not_inj_iff, Bool.eq_iff_iff]
    simpa using h
  rw [written, written, hany]

/-- A number of one digit is not too long. -/
theorem isTooLong_of_lt {n : Nat} (h : n < 10) : isTooLong n = false := by
  have hlimit : 10 ^ 1 ≤ power 10 digitLimit := Nat.pow_le_pow_right (by decide) (by decide)
  exact isTooLong_eq_false_iff.2 (Nat.lt_of_lt_of_le h hlimit)

/-- The powers of two with too many digits are those from the bound on. -/
theorem isTooLong_power_iff {k : Nat} : isTooLong (power 2 k) = true ↔ digitBits ≤ k := by
  have hbelow : power 2 (digitBits - 1) < power 10 digitLimit := by decide +kernel
  have habove : power 10 digitLimit ≤ power 2 digitBits := by decide +kernel
  rw [isTooLong_iff]
  constructor
  · intro h
    by_contra hk
    have hpower : power 2 k ≤ power 2 (digitBits - 1) :=
      Nat.pow_le_pow_right (by decide) (by omega)
    omega
  · intro h
    exact habove.trans (Nat.pow_le_pow_right (by decide) h)

/-- A text is written with a power of two if its exponent is below the bound. -/
theorem writtenPower_eq_ok {k : Nat} :
    writtenPower k text = .ok result ↔ k < digitBits ∧ text = result := by
  unfold writtenPower
  split
  · next hlong =>
    constructor
    · intro h
      cases h
    · rintro ⟨hshort, -⟩
      omega
  · next hshort =>
    rw [Except.ok.injEq]
    exact ⟨fun h => ⟨by omega, h⟩, fun h => h.2⟩

/-- The exponent decides as the power itself would. -/
theorem writtenPower_eq {k : Nat} : writtenPower k text = written [power 2 k] text := by
  unfold writtenPower written
  simp only [List.any_cons, List.any_nil, Bool.or_false, isTooLong_power_iff]

end Numeral

/-! ### The numbers of a netlist -/

/-- Can the spelling of an index be written? -/
def Index.IsShort (i : Index) : Prop := ∀ k ∈ i.numerals, Numeral.isTooLong k = false

/-- The spelling of an index can be written if the number that it stands for can. -/
theorem Index.isShort_iff {i : Index} : i.IsShort ↔ Numeral.isTooLong i.value = false := by
  cases i with
  | number n => simp [IsShort, numerals]
  | flag b =>
    have hb : b.toNat < 10 := by cases b <;> decide
    exact iff_of_true (fun k hk => (List.not_mem_nil hk).elim) (Numeral.isTooLong_of_lt hb)

/-- Numbers of one digit can be written. -/
theorem Index.isShort_number {n : Nat} (h : n < 10) : (number n).IsShort :=
  isShort_iff.2 (Numeral.isTooLong_of_lt h)

/-- What is not above an index that can be written can be written too. -/
theorem Index.IsShort.mono {i j : Index} (h : i.IsShort) (hle : j.value ≤ i.value) :
    j.IsShort := by
  rw [isShort_iff, Numeral.isTooLong_eq_false_iff] at h ⊢
  exact Nat.lt_of_le_of_lt hle h

/-- Can the spelling of a wire be written? -/
def Wire.IsShort (w : Wire) : Prop := w.driver.IsShort ∧ w.port.IsShort

theorem Wire.isShort_iff {w : Wire} :
    w.IsShort ↔ ∀ k ∈ w.numerals, Numeral.isTooLong k = false := by
  simp only [IsShort, Index.IsShort, numerals, List.forall_mem_append]

/-- Can all numbers of an instance be written? -/
structure Instance.IsShort (i : Instance) : Prop where
  id : i.id.IsShort
  outputCount : i.outputCount.IsShort
  inputs : ∀ w ∈ i.inputs, w.IsShort

private theorem Instance.isShort_iff {i : Instance} :
    i.IsShort ↔ ∀ k ∈ i.numerals, Numeral.isTooLong k = false := by
  simp only [numerals, List.forall_mem_append, List.forall_mem_flatMap, ← Wire.isShort_iff]
  exact ⟨fun h => ⟨⟨h.id, h.outputCount⟩, h.inputs⟩, fun h => ⟨h.1.1, h.1.2, h.2⟩⟩

/-- Can all numbers of a netlist be written? -/
structure Netlist.IsShort (n : Netlist) : Prop where
  instances : ∀ i ∈ n.instances, i.IsShort
  outputs : ∀ o ∈ n.outputs, o.2.IsShort

theorem Netlist.isShort_iff {n : Netlist} :
    n.IsShort ↔ ∀ k ∈ n.numerals, Numeral.isTooLong k = false := by
  simp only [numerals, List.forall_mem_append, List.forall_mem_flatMap, ← Wire.isShort_iff,
    ← Instance.isShort_iff]
  exact ⟨fun h => ⟨h.instances, h.outputs⟩, fun h => ⟨h.1, h.2⟩⟩

/-- The numbers in a procedure can be written if the weights of the outputs, the numbers of the
netlist and the numbers of locations can. -/
theorem Netlist.checkNumerals_eq_ok {n : Netlist} {s : Schedule} :
    n.checkNumerals s = .ok () ↔
      n.outputs.length - 1 < Numeral.digitBits ∧ n.IsShort ∧
        ∀ c ∈ s.components, ∀ shape ports, c.cell = .memory shape ports →
          shape.addressWidth < Numeral.digitBits := by
  have hdepth : ∀ c : Component, c.checkDepth = .ok () ↔
      ∀ shape ports, c.cell = .memory shape ports → shape.addressWidth < Numeral.digitBits := by
    intro c
    unfold Component.checkDepth
    split
    · next shape ports hcell =>
      rw [MemoryShape.checkDepth, Numeral.writtenPower_eq_ok]
      constructor
      · rintro ⟨hshort, -⟩ shape' ports' hcell'
        cases hcell.symm.trans hcell'
        exact hshort
      · exact fun h => ⟨h shape ports hcell, rfl⟩
    · next hother => exact iff_of_true rfl fun shape ports hcell => (hother shape ports hcell).elim
  unfold checkNumerals
  simp only [bind_eq_ok, Numeral.writtenPower_eq_ok, Numeral.written_eq_ok, forM_eq_ok, hdepth,
    ← isShort_iff, and_true, exists_and_left, exists_const]

end Latchwork
