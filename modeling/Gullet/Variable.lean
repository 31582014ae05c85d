import Gullet.CatCode.Table
import Gullet.Dimen
import Gullet.Scope
import Gullet.Token

/-!
# Variables

The values that assignments change: registers for integers, dimensions and token lists, the category
codes, and a few single integers. A store holds them all under grouping; a variable that was never
written has its initial value.
-/

namespace Gullet

/-- The variables that hold integers. -/
inductive IntVariable where
  /-- An integer register. -/
  | count (index : Nat)
  /-- How much is written about macro calls. -/
  | tracingMacros
  /-- An integer for trying things out. -/
  | scratch
deriving DecidableEq, Repr

/-- A number for each integer variable. -/
def IntVariable.rank : IntVariable → Nat
  | tracingMacros => 0
  | scratch => 1
  | count index => index + 2

theorem IntVariable.eq_of_rank_eq {a b : IntVariable} (h : a.rank = b.rank) : a = b := by
  cases a <;> cases b <;> simp_all [rank]

instance : Ord IntVariable := ⟨compareOn IntVariable.rank⟩

instance : Std.TransOrd IntVariable := inferInstanceAs (Std.TransCmp (compareOn IntVariable.rank))

instance : Std.LawfulEqOrd IntVariable where
  eq_of_compare {a b} h := by
    have h' : compare a.rank b.rank = .eq := h
    exact IntVariable.eq_of_rank_eq (Std.LawfulEqOrd.eq_of_compare h')

/-- A variable. -/
inductive Variable where
  | int (v : IntVariable)
  | dimen (index : Nat)
  | tokenList (index : Nat)
  | catCode (codePoint : Nat)
deriving DecidableEq, Repr

/-- What kind of variable it is, in words. -/
def Variable.words : Variable → String
  | int _ => "an integer variable"
  | dimen _ => "a dimension variable"
  | tokenList _ => "a token list variable"
  | catCode _ => "a category code variable"

/-- The families of registers that can be given names. -/
inductive RegisterKind where
  | count
  | dimen
  | toks
deriving DecidableEq, Repr

/-- The number of registers of a kind. -/
def RegisterKind.number : RegisterKind → Nat
  | count => 32768
  | dimen => 256
  | toks => 256

/-- The register of a kind with the given index. -/
def RegisterKind.register : RegisterKind → Nat → Variable
  | count, index => .int (.count index)
  | dimen, index => .dimen index
  | toks, index => .tokenList index

/-- How a command determines its variable. -/
inductive VariableCommand where
  /-- A register whose index is read from the input. -/
  | register (kind : RegisterKind)
  /-- The category code of a character that is read from the input. -/
  | catCode
  /-- Always the same variable. -/
  | fixed (v : Variable)
deriving DecidableEq, Repr

/-- The number of code points that have a category code. -/
def codePointCount : Nat := 1114112

/-- The values of all variables, under grouping. -/
structure Store where
  ints : ScopedMap IntVariable Int := {}
  dimens : ScopedMap Nat Dimen := {}
  tokenLists : ScopedMap Nat (List Token) := {}
  catCodes : ScopedMap Nat CatCode := {}
deriving Inhabited

namespace Store

/-- The value of an integer variable. -/
def int (s : Store) (v : IntVariable) : Int := (s.ints.get? v).getD 0

/-- The value of a dimension register. -/
def dimen (s : Store) (index : Nat) : Dimen := (s.dimens.get? index).getD .zero

/-- The value of a token list register. -/
def tokenList (s : Store) (index : Nat) : List Token := (s.tokenLists.get? index).getD []

/-- The category of a code point. -/
def catCode (s : Store) (codePoint : Nat) : CatCode := CatCode.Table.code s.catCodes.visible codePoint

/-- Writes an integer variable. -/
def setInt (s : Store) (scope : Scope) (v : IntVariable) (n : Int) : Store :=
  { s with ints := s.ints.insert scope v n }

/-- Writes a dimension register. -/
def setDimen (s : Store) (scope : Scope) (index : Nat) (d : Dimen) : Store :=
  { s with dimens := s.dimens.insert scope index d }

/-- Writes a token list register. -/
def setTokenList (s : Store) (scope : Scope) (index : Nat) (ts : List Token) : Store :=
  { s with tokenLists := s.tokenLists.insert scope index ts }

/-- Writes a category code. -/
def setCatCode (s : Store) (scope : Scope) (codePoint : Nat) (c : CatCode) : Store :=
  { s with catCodes := s.catCodes.insert scope codePoint c }

/-- A value for a variable. -/
inductive Write where
  | int (v : IntVariable) (n : Int)
  | dimen (index : Nat) (d : Dimen)
  | tokenList (index : Nat) (ts : List Token)
  | catCode (codePoint : Nat) (c : CatCode)

/-- Writes a variable. -/
def write (s : Store) (scope : Scope) : Write → Store
  | .int v n => s.setInt scope v n
  | .dimen index d => s.setDimen scope index d
  | .tokenList index ts => s.setTokenList scope index ts
  | .catCode codePoint c => s.setCatCode scope codePoint c

/-- Opens a group. -/
def beginGroup (s : Store) : Store where
  ints := s.ints.beginGroup
  dimens := s.dimens.beginGroup
  tokenLists := s.tokenLists.beginGroup
  catCodes := s.catCodes.beginGroup

/-- Closes the innermost group. -/
def endGroup (s : Store) : Store where
  ints := s.ints.endGroup
  dimens := s.dimens.endGroup
  tokenLists := s.tokenLists.endGroup
  catCodes := s.catCodes.endGroup

end Store

end Gullet
