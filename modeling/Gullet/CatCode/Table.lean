import Std.Data.TreeMap
import Gullet.CatCode

/-!
# Tables of category codes

A table records the categories that have been assigned. Looking up a code point never fails: one that
has no assignment has its default category.
-/

namespace Gullet.CatCode

/-- The assigned categories, by code point. -/
abbrev Table := Std.TreeMap Nat CatCode

namespace Table

/-- The category of a code point. -/
def code (table : Table) (codePoint : Nat) : CatCode :=
  (table[codePoint]?).getD (defaultFor codePoint)

/-- The table with one more assignment. -/
def assign (table : Table) (codePoint : Nat) (c : CatCode) : Table := table.insert codePoint c

/-- The table of internal LaTeX code, in which `@` is a letter. -/
def internal : Table := assign ∅ '@'.toNat letter

/-- The categories of the ASCII characters, in order. -/
def ascii (table : Table) : List CatCode := (List.range 128).map table.code

/-- The assignments to code points beyond ASCII, in order. -/
def beyondAscii (table : Table) : List (Nat × CatCode) :=
  table.toList.filter fun entry => 128 ≤ entry.1

@[simp] theorem code_empty (n : Nat) : code ∅ n = defaultFor n := by
  simp [code]

/-- An assignment is what is looked up, and changes nothing else. -/
theorem code_assign (table : Table) (n m : Nat) (c : CatCode) :
    (table.assign n c).code m = if m = n then c else table.code m := by
  by_cases h : n = m
  · subst h; simp [code, assign]
  · simp [code, assign, Std.TreeMap.getElem?_insert, h, Ne.symm h]

end Table

end Gullet.CatCode
