import Gullet.Dimen

/-!
# Units of length

The physical units in which dimensions are written, their abbreviations, and the fraction of a point
that each of them stands for.
-/

namespace Gullet

/-- A unit of length. -/
inductive LengthUnit where
  | point
  | pica
  | inch
  | bigPoint
  | centimeter
  | millimeter
  | didotPoint
  | cicero
  | scaledPoint
deriving DecidableEq, Repr

namespace LengthUnit

/-- All units with their abbreviations, in the order in which a reader tries them. -/
def all : List (String × LengthUnit) :=
  [("pt", point), ("in", inch), ("pc", pica), ("cm", centimeter), ("mm", millimeter),
   ("bp", bigPoint), ("dd", didotPoint), ("cc", cicero), ("sp", scaledPoint)]

/-- The unit with the given abbreviation. -/
def ofAbbreviation? (s : String) : Option LengthUnit :=
  (all.find? fun entry => entry.1 = s).map Prod.snd

/-- The fraction `(n, d)` such that a length of `x` units is `n * x / d` points. -/
def fraction : LengthUnit → Int × Int
  | point => (1, 1)
  | pica => (12, 1)
  | inch => (7227, 100)
  | bigPoint => (7227, 7200)
  | centimeter => (7227, 254)
  | millimeter => (7227, 2540)
  | didotPoint => (1238, 1157)
  | cicero => (14856, 1157)
  | scaledPoint => (1, 65536)

/-- The unit's name. -/
def name : LengthUnit → String
  | point => "Point"
  | pica => "Pica"
  | inch => "Inch"
  | bigPoint => "BigPoint"
  | centimeter => "Centimeter"
  | millimeter => "Millimeter"
  | didotPoint => "DidotPoint"
  | cicero => "Cicero"
  | scaledPoint => "ScaledPoint"

/-- The length of `whole + part` units, where `part` is a fraction of a point in scaled points.

Scaled points drop the fraction. For the other units the whole part is converted first, its remainder
is carried into the fraction, and the result has to be a legal number of whole points. -/
def times? (u : LengthUnit) (whole : Int) (part : Dimen) : Option Dimen :=
  match u with
  | scaledPoint => if whole > Dimen.greatest then none else some ⟨whole⟩
  | point => (Dimen.ofPoints? whole).map (· + part)
  | u => do
    let (n, d) := u.fraction
    let (i, remainder) ← Dimen.scaleBy? ⟨whole⟩ n d
    let carried ← Dimen.ofPoints? remainder.scaled
    let f ← part.mulAdd? n carried
    let f := f.dividedBy d
    let points ← Dimen.ofPoints? (i.scaled + f.wholePoints)
    return points + f.fraction

end LengthUnit

end Gullet
