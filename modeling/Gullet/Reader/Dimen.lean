import Gullet.Dimen.Unit
import Gullet.Reader.Number

/-!
# Reading dimensions

A dimension is a number, which may have decimals, with a unit; or a variable that holds a dimension; or a
number that multiplies a variable.
-/

namespace Gullet.Reader

/-- Digits after these do not change a fraction. -/
def fractionDigits : Nat := 17

/-- Reads the decimals of a number, and a space after them. -/
def decimals (s : Stream) : Run Dimen := do
  let digits ← Run.loop (fun (sofar : List Nat) => do
    match ← s with
    | none => return .inr sofar
    | some t =>
      match t.value with
      | .char .space _ => return .inr sofar
      | v =>
        match digit? .decimal v, v with
        | some d, .char .other _ =>
          return .inl (if sofar.length < fractionDigits then d :: sofar else sofar)
        | _, _ =>
          Run.pushBack t
          return .inr sofar) []
  return .ofDecimalFraction digits.reverse

/-- Reads a unit of length. -/
def unit (s : Stream) : Run LengthUnit := do
  let rec go : List (String × LengthUnit) → Run LengthUnit
    | [] => do
      let got ← s.peek
      Run.fail (.expected .unit got)
    | (word, u) :: rest => do
      if ← s.keyword word then return u else go rest
  go LengthUnit.all

/-- Reads a unit, or a variable that is multiplied, and gives the length; `none` if it is too large. -/
def scaled (x : Expander) (whole : Int) (part : Dimen) : Run (Option Dimen) := do
  let s := Stream.expanded x
  s.skipSpaces
  let next ← s
  match next with
  | some t@⟨.command ref, _⟩ =>
    let v ←
      match ← internalNumber (numberAt x) t ref with
      | .integer n => pure (Dimen.mk n)
      | .dimen d => pure d
    return do
      let (f, _) ← v.scaleBy? part.scaled 65536
      v.mulAdd? whole f
  | _ =>
    next.forM Run.pushBack
    _ ← s.keyword "true"
    let u ← unit s
    _ ← s.takeSpace
    return u.times? whole part

/-- The negative of a dimension. The least word has none. -/
def negate (d : Dimen) : Run Dimen :=
  if d.scaled = Word.least then throw .overflow else return -d

/-- Reads the unit of a dimension whose number, without its signs, has been read from `first` on. -/
def finishDimen (x : Expander) (negative : Bool) (first : Token) (whole : Int) (part : Dimen) :
    Run Dimen := do
  let (negative, whole) := if whole < 0 then (!negative, Word.wrap (-whole)) else (negative, whole)
  match ← scaled x whole part with
  | none => Run.fail (.expected .smallerDimen (some first))
  | some d => if negative then negate d else return d

/-- Whether a token separates the decimals from the whole number. -/
def point? : TokenValue → Option Unit
  | .char .other ',' | .char .other '.' => some ()
  | _ => none

/-- Reads a dimension. -/
def dimen (x : Expander) : Run Dimen := do
  let s := Stream.expanded x
  let negative ← signs s
  let first ← s.nextOr .dimen
  let finish := finishDimen x negative first
  match first.value with
  | .command ref =>
    match ← internalNumber (numberAt x) first ref with
    | .integer n => finish n .zero
    | .dimen d => if negative then negate d else return d
  | v =>
    if (point? v).isSome then finish 0 (← decimals s)
    else
      match v, digit? .decimal v with
      | .char .other _, some d =>
        let n ← digits s .decimal d true
        match ← s.take? point? with
        | some () => finish n (← decimals s)
        | none => finish n .zero
      | _, _ =>
        Run.pushBack first
        finish (← number x) .zero

end Gullet.Reader
