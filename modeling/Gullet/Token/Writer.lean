import Gullet.Token

/-!
# Writing tokens

Tokens are written so that the text is read back as the same tokens: a control word is followed by a
space when a letter comes next, and a run of spaces is written as one.
-/

namespace Gullet

/-- Whether a control sequence name is a word, after which blanks are skipped, rather than a symbol. -/
def isControlWord (name : String) : Bool :=
  match name.toList with
  | [] => false
  | [c] => Text.isAlphabetic c
  | _ => true

namespace TokenValue

/-- What was written last, as far as it bears on what comes next. -/
inductive Before where
  /-- A control word. -/
  | controlWord
  /-- A space. -/
  | space
  /-- Anything else, or nothing. -/
  | other
deriving DecidableEq

/-- The characters that write the values, after `before`. -/
def writeAfter : Before → List TokenValue → List Char
  | _, [] => []
  | _, .command (.controlSequence name) :: rest =>
    '\\' :: (name.toList ++ writeAfter (if isControlWord name then .controlWord else .other) rest)
  | .space, .char .space _ :: rest => writeAfter .space rest
  | _, .char .space _ :: rest => ' ' :: writeAfter .space rest
  | .controlWord, .char .letter c :: rest => ' ' :: c :: writeAfter .other rest
  | _, .char _ c :: rest => c :: writeAfter .other rest
  | _, .command (.active c) :: rest => c :: writeAfter .other rest

/-- The text that writes the values. -/
def write (values : List TokenValue) : String := String.ofList (writeAfter .other values)

end TokenValue

/-- The text that writes the tokens. -/
def Token.write (tokens : List Token) : String := TokenValue.write (tokens.map Token.value)

end Gullet
