/-!
# Signed words of 32 bits

Registers hold integers between `Word.least` and `Word.greatest`. They are kept as `Int`; this module
says which integers fit, what wrapping around the ends of the range gives, and how operations that
refuse to leave the range answer.
-/

namespace Gullet.Word

/-- The least word, `-2^31`. -/
def least : Int := -2147483648

/-- The greatest word, `2^31 - 1`. -/
def greatest : Int := 2147483647

/-- Whether an integer is a word. -/
def fits (n : Int) : Bool := least ≤ n && n ≤ greatest

/-- The word that is congruent to `n` modulo `2^32`. -/
def wrap (n : Int) : Int := n.bmod 4294967296

/-- The integer itself if it is a word. -/
def checked? (n : Int) : Option Int := if fits n then some n else none

/-- The quotient rounded toward zero, absent if the divisor is zero or the quotient is no word. -/
def div? (a b : Int) : Option Int := if b = 0 then none else checked? (a.tdiv b)

theorem fits_iff {n : Int} : fits n = true ↔ -2147483648 ≤ n ∧ n ≤ 2147483647 := by
  rw [fits, least, greatest, Bool.and_eq_true, decide_eq_true_iff, decide_eq_true_iff]

/-- Wrapping always gives a word. -/
theorem fits_wrap (n : Int) : fits (wrap n) = true := by
  have h₁ := Int.le_bmod (x := n) (m := 4294967296) (by decide)
  have h₂ := Int.bmod_le (x := n) (m := 4294967296) (by decide)
  rw [fits_iff, wrap]
  omega

/-- Wrapping keeps a word as it is. -/
theorem wrap_of_fits {n : Int} (h : fits n = true) : wrap n = n := by
  rw [fits_iff] at h
  exact Int.bmod_eq_of_le (by omega) (by omega)

/-- A checked integer that is present is the integer itself, and a word. -/
theorem checked?_eq_some_iff {n m : Int} : checked? n = some m ↔ fits n = true ∧ n = m := by
  simp [checked?]

end Gullet.Word
