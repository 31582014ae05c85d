import Gullet.Word

/-!
# Dimensions

A dimension is a whole number of scaled points, of which `2^16` make a point. Arithmetic that stays
inside the legal range is exact; an operation that would leave it has no result.

Decimal fractions of a point are read so that every multiple of a scaled point has a short decimal
form, and `Dimen.text` writes the shortest form that is read back as the same dimension.
-/

namespace Gullet

/-- A dimension as a number of scaled points. -/
structure Dimen where
  /-- The number of scaled points. -/
  scaled : Int
deriving DecidableEq, Repr, Inhabited

namespace Dimen

/-- Scaled points in a point. -/
def unity : Int := 65536

/-- The greatest legal number of scaled points, `2^30 - 1`. -/
def greatest : Int := 1073741823

/-- No length at all. -/
def zero : Dimen := ⟨0⟩

/-- Whether the dimension is legal: strictly between `-2^14` and `2^14` points. -/
def isLegal (d : Dimen) : Bool := -greatest ≤ d.scaled && d.scaled ≤ greatest

/-- A legal dimension of the given number of scaled points. -/
def ofScaled? (n : Int) : Option Dimen :=
  if isLegal ⟨n⟩ then some ⟨n⟩ else none

/-- A whole number of points, strictly between `-2^14` and `2^14`. -/
def ofPoints? (n : Int) : Option Dimen :=
  if -16384 < n && n < 16384 then some ⟨unity * n⟩ else none

/-- The part of a point whose decimal digits after the point are given, rounded to scaled points.

The digits are folded from the last to the first in units of half a scaled point, and the last half is
rounded up. -/
def ofDecimalFraction (digits : List Nat) : Dimen :=
  ⟨((digits.foldr (fun d a => (a + d * 131072) / 10) 0 + 1) / 2 : Nat)⟩

/-- The dimension times `n / d`, rounded toward zero, with the remainder of the division. -/
def scaleBy? (x : Dimen) (n d : Int) : Option (Dimen × Dimen) :=
  if d = 0 then none
  else (ofScaled? ((x.scaled * n).tdiv d)).map fun q => (q, ⟨(x.scaled * n).tmod d⟩)

/-- The dimension times `n`, plus `y`. -/
def mulAdd? (x : Dimen) (n : Int) (y : Dimen) : Option Dimen :=
  ofScaled? (x.scaled * n + y.scaled)

/-- The sum, if it is legal. -/
def add? (x y : Dimen) : Option Dimen := x.mulAdd? 1 y

/-- The multiple, if it is legal. -/
def mul? (x : Dimen) (n : Int) : Option Dimen := x.mulAdd? n zero

/-- The quotient, rounded toward zero. -/
def div? (x : Dimen) (n : Int) : Option Dimen := (Word.div? x.scaled n).map Dimen.mk

/-- The whole points of the dimension, rounded toward zero. -/
def wholePoints (x : Dimen) : Int := x.scaled.tdiv unity

/-- What is left of the dimension beside its whole points. -/
def fraction (x : Dimen) : Dimen := ⟨x.scaled.tmod unity⟩

/-- The dimension without its sign. -/
def abs (x : Dimen) : Dimen := ⟨x.scaled.natAbs⟩

instance : Add Dimen := ⟨fun x y => ⟨x.scaled + y.scaled⟩⟩
instance : Sub Dimen := ⟨fun x y => ⟨x.scaled - y.scaled⟩⟩
instance : Neg Dimen := ⟨fun x => ⟨-x.scaled⟩⟩

/-- The dimension times a whole number. -/
def times (x : Dimen) (n : Int) : Dimen := ⟨x.scaled * n⟩

/-- The dimension divided by a whole number, rounded toward zero. -/
def dividedBy (x : Dimen) (n : Int) : Dimen := ⟨x.scaled.tdiv n⟩

/-- The decimal digits of a fraction of a point, the fewest that are read back as the same fraction.

`f` is the part still to be written, ten times too large, and `delta` the width of the interval of
numbers that would be read back as the same fraction. Five digits always suffice; the last of them is
rounded. -/
def fractionDigits : Nat → Nat → Nat → List Nat
  | 0, _, _ => []
  | fuel + 1, f, delta =>
    let f := if delta > 65536 then f - 17232 else f
    let rest := f % 65536 * 10
    f / 65536 :: if rest ≤ delta * 10 then [] else fractionDigits fuel rest (delta * 10)

/-- The decimal digits written after the point of a dimension. -/
def decimals (x : Dimen) : List Nat :=
  fractionDigits 5 (x.scaled.natAbs % 65536 * 10 + 5) 10

/-- The dimension in points, as text. -/
def text (x : Dimen) : String :=
  (if x.scaled < 0 then "-" else "") ++ toString (x.scaled.natAbs / 65536) ++ "." ++
    String.ofList (x.decimals.map Nat.digitChar) ++ "pt"

/-- A dimension that was built by the checked constructor is legal and has the given size. -/
theorem ofScaled?_eq_some_iff {n : Int} {d : Dimen} :
    ofScaled? n = some d ↔ -greatest ≤ n ∧ n ≤ greatest ∧ d = ⟨n⟩ := by
  unfold ofScaled? isLegal
  constructor
  · intro h
    split at h <;> simp_all
  · rintro ⟨h₁, h₂, rfl⟩
    simp [h₁, h₂]

@[simp] theorem scaled_add (x y : Dimen) : (x + y).scaled = x.scaled + y.scaled := rfl

@[simp] theorem scaled_neg (x : Dimen) : (-x).scaled = -x.scaled := rfl

end Dimen

end Gullet
