import Gullet.Search
import Gullet.Text.Styled
import Gullet.Token.Writer

/-!
# Macros

A macro has tokens that must follow its name, a list of parameters, and a replacement text. In
`\def\a x#1y#2{(#2,#1)}` the lead is `x`, the first parameter is delimited by `y`, the second is
undelimited, and the replacement text is `(#2,#1)`.
-/

namespace Gullet

/-- A parameter of a macro. -/
inductive Parameter where
  /-- Takes one token or the content of one group. -/
  | undelimited
  /-- Takes everything up to the first balanced occurrence of the delimiter. -/
  | delimited (delimiter : Matcher TokenValue)

/-- The delimiter of a parameter. -/
def Parameter.delimiter? : Parameter → Option (List TokenValue)
  | undelimited => none
  | delimited m => some m.pattern.toList

/-- A piece of a replacement text. -/
inductive Replacement where
  /-- A run of tokens. -/
  | tokens (ts : List Token)
  /-- A parameter, counted from zero. -/
  | parameter (index : Nat)
deriving Repr

/-- A piece of a replacement text without the places of its tokens. -/
def Replacement.values : Replacement → List TokenValue ⊕ Nat
  | tokens ts => .inl (ts.map Token.value)
  | parameter index => .inr index

/-- A macro. -/
structure Macro where
  /-- Whether arguments may contain a paragraph break. -/
  long : Bool := false
  /-- Whether the macro is left alone where texts are fully expanded. -/
  shielded : Bool := false
  /-- The tokens that must follow the macro's name. -/
  lead : List Token := []
  /-- The parameters. -/
  parameters : List Parameter := []
  /-- The replacement text. -/
  replacement : List Replacement := []

namespace Macro

/-- All that a macro is, without the places of its tokens. -/
structure Content where
  long : Bool
  shielded : Bool
  lead : List TokenValue
  parameters : List (Option (List TokenValue))
  replacement : List (List TokenValue ⊕ Nat)
deriving DecidableEq

/-- The content of a macro. -/
def content (m : Macro) : Content where
  long := m.long
  shielded := m.shielded
  lead := m.lead.map Token.value
  parameters := m.parameters.map Parameter.delimiter?
  replacement := m.replacement.map Replacement.values

/-- Whether two macros are the same, wherever they were defined. -/
def same (a b : Macro) : Bool := a.content = b.content

/-- The replacement text with arguments in place of the parameters. -/
def fill (replacement : List Replacement) (arguments : List (List Token)) : List Token :=
  replacement.flatMap fun
    | .tokens ts => ts
    | .parameter index => (arguments[index]?).getD []

/-- The number of a parameter as it is written, counted from one. -/
def parameterText (index : Nat) : String := "#" ++ toString (index + 1)

/-- The parameters as they are written in a definition, with numbers shown by `number`. -/
def parametersText (number : Nat → String) (m : Macro) : String :=
  String.join <| m.parameters.mapIdx fun i p =>
    number i ++ (p.delimiter?.map TokenValue.write).getD ""

/-- The replacement text as it is written in a definition, with numbers shown by `number`. -/
def replacementText (number : Nat → String) (m : Macro) : String :=
  String.join <| m.replacement.map fun
    | .tokens ts => Token.write ts
    | .parameter index => number index

/-- The definition as it is shown to the user, without the flags. -/
def definition (m : Macro) : String :=
  Token.write m.lead ++ m.parametersText parameterText ++ "->" ++ m.replacementText parameterText

/-- The macro's meaning as it is shown to the user. -/
def meaning (m : Macro) : String :=
  (if m.shielded then "\\protected " else "") ++ (if m.long then "\\long " else "") ++
    "macro:" ++ m.definition

/-- The number of a parameter in the description of a macro. The first one stands out. -/
def shownParameter (styling : Text.Styling) (index : Nat) : String :=
  styling.apply [.bold, if index = 0 then .brightYellow else .brightBlue] (parameterText index)

/-- A description of the macro. -/
def describe (styling : Text.Styling) (m : Macro) : String :=
  let number := shownParameter styling
  let lead :=
    if m.lead.isEmpty then " . No prefix\n"
    else " . Prefix: `" ++ Token.write m.lead ++ "`\n"
  let parameters := String.join <| m.parameters.mapIdx fun i p =>
    "    " ++ number i ++
      match p.delimiter? with
      | none => ": undelimited\n"
      | some d => ": delimited by `" ++ TokenValue.write d ++ "`\n"
  "User defined macro\n\n" ++ styling.apply [.italic] "Parameters definition" ++ "\n" ++ lead ++
    " . Parameters (" ++ toString m.parameters.length ++ "):\n" ++ parameters ++
    " . Full argument specification: `" ++ Token.write m.lead ++ m.parametersText number ++ "`" ++
    "\n\n" ++ styling.apply [.italic] "Replacement definition:" ++ " `" ++
    m.replacementText number ++ "`\n"

@[simp] theorem fill_nil (arguments : List (List Token)) : fill [] arguments = [] := rfl

@[simp] theorem fill_tokens (ts : List Token) (rest : List Replacement)
    (arguments : List (List Token)) :
    fill (.tokens ts :: rest) arguments = ts ++ fill rest arguments := rfl

@[simp] theorem fill_parameter (index : Nat) (rest : List Replacement)
    (arguments : List (List Token)) :
    fill (.parameter index :: rest) arguments =
      (arguments[index]?).getD [] ++ fill rest arguments := rfl

end Macro

end Gullet
