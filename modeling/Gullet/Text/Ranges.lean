/-!
# Sets of code points given by ranges

A property of characters is stored as a list of closed ranges of code points.
-/

namespace Gullet.Text

/-- Closed ranges `(first, last)` of code points. -/
abbrev Ranges := List (Nat × Nat)

/-- Whether a code point lies in one of the ranges. -/
def Ranges.contains (ranges : Ranges) (codePoint : Nat) : Bool :=
  ranges.any fun (first, last) => first ≤ codePoint && codePoint ≤ last

theorem Ranges.contains_iff {ranges : Ranges} {n : Nat} :
    ranges.contains n = true ↔ ∃ r ∈ ranges, r.1 ≤ n ∧ n ≤ r.2 := by
  simp [contains]

end Gullet.Text
