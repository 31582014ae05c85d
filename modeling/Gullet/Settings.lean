/-!
# Typographic settings

The interpreter does not typeset, but whoever receives its output has to know which font, size, colour
and mode are in effect where text is written.
-/

namespace Gullet

/-- Font families. -/
inductive Family where
  | roman
  | sansSerif
  | typewriter
  | calligraphic
deriving DecidableEq, Repr, Inhabited

/-- Font shapes. -/
inductive Shape where
  | upright
  | italic
  | slanted
  /-- Italic in upright text and upright in italic text. -/
  | emphasized
  | smallCaps
deriving DecidableEq, Repr, Inhabited

/-- Font weights. -/
inductive Weight where
  | medium
  | bold
deriving DecidableEq, Repr, Inhabited

/-- Font sizes, from the smallest to the largest. -/
inductive Size where
  | tiny
  | scriptSize
  | footnoteSize
  | small
  | normalSize
  | large
  | larger
  | largest
  | huge
  | hugest
deriving DecidableEq, Repr

/-- Whether text or a formula is being written. -/
inductive TypesetMode where
  | text
  | inlineMath
  | displayMath
deriving DecidableEq, Repr, Inhabited

/-- The typographic state at one point of the input. -/
structure Settings where
  family : Family := .roman
  shape : Shape := .upright
  weight : Weight := .medium
  size : Size := .normalSize
  mode : TypesetMode := .text
  /-- The colour of the text, if one has been set. -/
  foreground : Option String := none
  /-- The colour of the background, if one has been set. -/
  background : Option String := none
deriving DecidableEq, Repr, Inhabited

/-- The names of the families. -/
def Family.name : Family → String
  | roman => "Roman"
  | sansSerif => "SansSerif"
  | typewriter => "Typewriter"
  | calligraphic => "Calligraphic"

/-- All families. -/
def Family.all : List Family := [roman, sansSerif, typewriter, calligraphic]

/-- The names of the shapes. -/
def Shape.name : Shape → String
  | upright => "Upright"
  | italic => "Italic"
  | slanted => "Slanted"
  | emphasized => "Emphasized"
  | smallCaps => "SmallCaps"

/-- All shapes. -/
def Shape.all : List Shape := [upright, italic, slanted, emphasized, smallCaps]

/-- The names of the weights. -/
def Weight.name : Weight → String
  | medium => "Medium"
  | bold => "Bold"

/-- All weights. -/
def Weight.all : List Weight := [medium, bold]

/-- The names of the sizes. -/
def Size.name : Size → String
  | tiny => "Tiny"
  | scriptSize => "ScriptSize"
  | footnoteSize => "FootnoteSize"
  | small => "Small"
  | normalSize => "NormalSize"
  | large => "Large"
  | larger => "Larger"
  | largest => "Largest"
  | huge => "Huge"
  | hugest => "Hugest"

/-- All sizes. -/
def Size.all : List Size :=
  [tiny, scriptSize, footnoteSize, small, normalSize, large, larger, largest, huge, hugest]

/-- The control sequence that selects a size. -/
def Size.command : Size → String
  | tiny => "tiny"
  | scriptSize => "scriptsize"
  | footnoteSize => "footnotesize"
  | small => "small"
  | normalSize => "normalsize"
  | large => "large"
  | larger => "Large"
  | largest => "LARGE"
  | huge => "huge"
  | hugest => "Huge"

/-- The names of the modes. -/
def TypesetMode.name : TypesetMode → String
  | text => "Text"
  | inlineMath => "InlineMath"
  | displayMath => "DisplayMath"

/-- All modes. -/
def TypesetMode.all : List TypesetMode := [text, inlineMath, displayMath]

namespace Settings

/-- Whether a formula is being written. -/
def isMath (s : Settings) : Bool := s.mode ≠ .text

/-- Emphasis: text that leans already becomes upright, and all other text emphasized. -/
def toggleEmphasis (s : Settings) : Settings :=
  { s with
    shape :=
      match s.shape with
      | .emphasized | .italic | .slanted => .upright
      | .upright | .smallCaps => .emphasized }

/-- The family, shape and weight of normal text. -/
def normalFont (s : Settings) : Settings :=
  { s with family := .roman, shape := .upright, weight := .medium }

end Settings

end Gullet
