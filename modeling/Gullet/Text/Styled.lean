/-!
# Styled text

Reports can be written for a terminal that understands escape sequences. A style is a list of numeric
codes; a styled text starts with its codes and ends with a reset. Where the text already holds a reset,
the style is switched on again after it.
-/

namespace Gullet.Text

/-- The styles that reports use. -/
inductive Style where
  | bold
  | italic
  | brightRed
  | brightYellow
  | brightBlue
  | brightCyan
deriving DecidableEq, Repr

/-- The code of a style. -/
def Style.code : Style → String
  | bold => "1"
  | italic => "3"
  | brightRed => "91"
  | brightYellow => "93"
  | brightBlue => "94"
  | brightCyan => "96"

/-- Whether reports are written with styles. -/
inductive Styling where
  | plain
  | styled
deriving DecidableEq, Repr, Inhabited

/-- The sequence that ends a styled text. -/
def resetSequence : String := "\x1b[0m"

/-- The sequence that starts a styled text. -/
def startSequence (styles : List Style) : String :=
  "\x1b[" ++ ";".intercalate (styles.map Style.code) ++ "m"

/-- The text in the given styles, or as it is where styles are off. -/
def Styling.apply (styling : Styling) (styles : List Style) (s : String) : String :=
  match styling with
  | .plain => s
  | .styled =>
    let start := startSequence styles
    start ++ (resetSequence ++ start).intercalate (s.splitOn resetSequence) ++ resetSequence

/-- The text in bold. -/
def Styling.bold (styling : Styling) (s : String) : String := styling.apply [.bold] s

@[simp] theorem Styling.apply_plain (styles : List Style) (s : String) :
    Styling.plain.apply styles s = s := rfl

@[simp] theorem Styling.bold_plain (s : String) : Styling.plain.bold s = s := rfl

end Gullet.Text
