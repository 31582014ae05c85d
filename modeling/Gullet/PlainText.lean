import Gullet.Event

/-!
# Plain text

The text of a document without its typography. Paragraphs are separated by blank lines, and the
argument of a script stands in braces unless it is a single character.

While it is collected, the text is kept as the list of its characters, last one first, because what
comes next depends on how the text ends.
-/

namespace Gullet.PlainText

/-- The text with more characters at its end. -/
def append (reversed : List Char) (s : String) : List Char := s.toList.reverse ++ reversed

/-- The text after the end of a paragraph: without spaces and tabs at its end, but with a blank line
unless it is empty or ends in one. -/
def endParagraph (reversed : List Char) : List Char :=
  match reversed.dropWhile (fun c => c = ' ' || c = '\t') with
  | [] => []
  | '\n' :: '\n' :: before => '\n' :: '\n' :: before
  | line => '\n' :: '\n' :: line

/-- A script with its marker. -/
def scriptText (marker argument : String) : String :=
  if argument.length = 1 then marker ++ argument else marker ++ "\x7b" ++ argument ++ "\x7d"

/-- A link. The address is left out if the text repeats it. -/
def linkText (url text : String) : String :=
  if text.isEmpty || text = url then url else text ++ " <" ++ url ++ ">"

/-- The text after one more event. -/
def add (reversed : List Char) : Event → List Char
  | .write text _ => append reversed text
  | .par => endParagraph reversed
  | .tab => append reversed "\t"
  | .verb text _ => append reversed text
  | .href url text => append reversed (linkText url text)
  | .subscript text _ => append reversed (scriptText "_" text)
  | .superscript text _ => append reversed (scriptText "^" text)
  | _ => reversed

/-- The text of a document, without blanks around it. -/
def ofEvents (events : List Event) : String :=
  Text.trim (String.ofList (events.foldl add []).reverse)

end Gullet.PlainText
