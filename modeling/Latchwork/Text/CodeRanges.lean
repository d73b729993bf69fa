import Latchwork.Text.Basic

/-!
# Ranges of code points

A property of code points is given by the closed ranges that have it.
-/

namespace Latchwork.Text

/-- Closed ranges of code points, in ascending order. -/
abbrev CodeRanges := List (Nat × Nat)

/-- Does the code point lie in one of the ranges? -/
def CodeRanges.contains (ranges : CodeRanges) (point : CodePoint) : Bool :=
  ranges.any fun r => decide (r.1 ≤ point.value) && decide (point.value ≤ r.2)

/-- A code point is in the ranges exactly when one of them holds its number. -/
theorem CodeRanges.contains_iff {ranges : CodeRanges} {point : CodePoint} :
    ranges.contains point = true ↔ ∃ r ∈ ranges, r.1 ≤ point.value ∧ point.value ≤ r.2 := by
  simp [CodeRanges.contains]

end Latchwork.Text
