import Gullet.Text.Alphabetic

/-!
# Category codes

The category of a character decides how the tokeniser treats it. Every code point has a category; as
long as none has been assigned, ASCII characters have the categories of plain TeX, other alphabetic
characters are letters, and all remaining code points are of category other.
-/

namespace Gullet

/-- The category of a character. -/
inductive CatCode where
  | escape
  | beginGroup
  | endGroup
  | mathShift
  | alignmentTab
  | endOfLine
  | parameter
  | superscript
  | subscript
  | ignored
  | space
  | letter
  | other
  | active
  | comment
  | invalid
deriving DecidableEq, Repr, Inhabited

namespace CatCode

/-- All categories in the order of their numbers. -/
def all : List CatCode :=
  [escape, beginGroup, endGroup, mathShift, alignmentTab, endOfLine, parameter, superscript,
   subscript, ignored, space, letter, other, active, comment, invalid]

/-- The category with the given number, between 0 and 15. -/
def ofInt? (n : Int) : Option CatCode :=
  if n < 0 then none else all[n.toNat]?

/-- The number of the category. -/
def number (c : CatCode) : Nat := c.ctorIdx

/-- The category in words. -/
def words : CatCode → String
  | escape => "escape"
  | beginGroup => "begin group"
  | endGroup => "end group"
  | mathShift => "math shift"
  | alignmentTab => "alignment tab"
  | endOfLine => "end of line"
  | parameter => "parameter"
  | superscript => "superscript"
  | subscript => "subscript"
  | ignored => "ignored"
  | space => "space"
  | letter => "letter"
  | other => "other"
  | active => "active"
  | comment => "comment"
  | invalid => "invalid"

/-- The category in words, with its number. -/
def text (c : CatCode) : String := c.words ++ " (" ++ toString c.number ++ ")"

/-- The category's name, as one word. -/
def name : CatCode → String
  | escape => "Escape"
  | beginGroup => "BeginGroup"
  | endGroup => "EndGroup"
  | mathShift => "MathShift"
  | alignmentTab => "AlignmentTab"
  | endOfLine => "EndOfLine"
  | parameter => "Parameter"
  | superscript => "Superscript"
  | subscript => "Subscript"
  | ignored => "Ignored"
  | space => "Space"
  | letter => "Letter"
  | other => "Other"
  | active => "Active"
  | comment => "Comment"
  | invalid => "Invalid"

/-- The category with the given name. -/
def ofName? (s : String) : Option CatCode := all.find? fun c => c.name = s

/-- Whether characters of this category become tokens of the same category. -/
def isTokenCategory : CatCode → Bool
  | escape | endOfLine | ignored | comment | invalid => false
  | _ => true

/-- The category of an ASCII character in plain TeX. -/
def ofAscii (c : Char) : CatCode :=
  match c with
  | '\x00' => ignored
  | '\t' | ' ' => space
  | '\n' | '\r' => endOfLine
  | '#' => parameter
  | '$' => mathShift
  | '%' => comment
  | '&' => alignmentTab
  | '\\' => escape
  | '^' => superscript
  | '_' => subscript
  | '\x7b' => beginGroup
  | '\x7d' => endGroup
  | '~' => active
  | '\x7f' => invalid
  | c => if c.isAlpha then letter else other

/-- The category of a code point to which none has been assigned. Numbers that are no code points are
of category other. -/
def defaultFor (codePoint : Nat) : CatCode :=
  if codePoint < 128 then ofAscii (Char.ofNat codePoint)
  else if codePoint.isValidChar && Text.isAlphabetic (Char.ofNat codePoint) then letter
  else other

/-- Categories and numbers correspond. -/
theorem ofInt?_number (c : CatCode) : ofInt? c.number = some c := by
  cases c <;> rfl

/-- Categories and names correspond. -/
theorem ofName?_name (c : CatCode) : ofName? c.name = some c := by
  cases c <;> decide +kernel

end CatCode

end Gullet
