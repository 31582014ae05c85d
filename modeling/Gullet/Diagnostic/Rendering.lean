import Gullet.Diagnostic

/-!
# Diagnostics for the terminal

A diagnostic is shown as a title, the line of the source where it happened with the token marked below,
the notes, and the commands that were running:

```text
Error: undefined control sequence
 --> main.tex:3:5
  |
3 | abc \foo
  |     ^^^^ control sequence
  |
  = note: did you mean \for?
```
-/

namespace Gullet

open Text

/-- What a block of a rendered diagnostic is about. -/
inductive BlockKind where
  /-- The fault itself. -/
  | failure
  /-- The command that was running. -/
  | context
deriving DecidableEq

/-- The colour of the marks in a block. -/
def BlockKind.color : BlockKind → Style
  | failure => .brightRed
  | context => .brightYellow

/-- The word that a block starts with. -/
def BlockKind.label : BlockKind → String
  | failure => "Error"
  | context => "Context"

/-- A block of a rendered diagnostic. -/
structure Block where
  kind : BlockKind
  source : Option Trace
  title : String
  caption : String
  notes : List String

/-- A text of `n` spaces. -/
def spaces (n : Nat) : String := String.ofList (List.replicate n ' ')

/-- The marks under a token of the given width. -/
def carets (width : Nat) : String := String.ofList (List.replicate (max width 1) '^')

/-- The lines of a text. What ends a line is not part of it, and an empty last line does not count. -/
def linesOf (s : String) : List String :=
  let parts := s.toList.splitOn '\n'
  let parts := if parts.getLast? = some [] then parts.dropLast else parts
  parts.map fun part => String.ofList (if part.getLast? = some '\r' then part.dropLast else part)

namespace Trace

/-- The place as text: source, line and column, both counted from one. -/
def place (t : Trace) : String :=
  t.origin.shown ++ ":" ++ toString t.lineNumber ++ ":" ++ toString (t.index + 1)

/-- The number of characters of the token. -/
def width (t : Trace) : Nat := t.value.length

/-- The line with the token in bold. A line that is too short for the token is shown as it is. -/
def highlighted (styling : Styling) (t : Trace) : String :=
  let chars := t.line.toList
  if chars.length < t.index + t.width then t.line
  else
    String.ofList (chars.take t.index) ++
      styling.bold (String.ofList ((chars.drop t.index).take t.width)) ++
      trimEnd (String.ofList (chars.drop (t.index + t.width)))

end Trace

/-- A line of a block: a margin, a separator and the content without blanks at its end. -/
def marginLine (styling : Styling) (margin : Nat) (inMargin : String) (separator : Char)
    (content : String) : String :=
  styling.apply [.brightCyan] (spaces (margin - (inMargin.length + 1)) ++ inMargin ++ " ") ++
    styling.apply [.brightCyan] (separator.toString ++ " ") ++ trimEnd content ++ "\n"

namespace Block

/-- The width of the margin: room for the line number and a space. -/
def margin (b : Block) : Nat :=
  match b.source with
  | none => 1
  | some t => (toString t.lineNumber).length + 1

/-- The content of the line that marks the token. -/
def markerLine (styling : Styling) (b : Block) (t : Trace) : String :=
  spaces t.index ++ styling.apply [.bold, b.kind.color] (carets t.width) ++ " " ++
    styling.apply [.bold, b.kind.color] b.caption

/-- The lines that show the place. -/
def sourceLines (styling : Styling) (b : Block) (t : Trace) : String :=
  spaces (b.margin - 1) ++ styling.apply [.bold, .brightCyan] "-->" ++ " " ++ t.place ++ "\n" ++
    marginLine styling b.margin "" '|' "" ++
    marginLine styling b.margin (toString t.lineNumber) '|' (t.highlighted styling) ++
    marginLine styling b.margin "" '|' (b.markerLine styling t)

/-- The lines that show a note. -/
def noteLines (styling : Styling) (b : Block) (note : String) : String :=
  match linesOf (trimEnd note) with
  | [] => ""
  | first :: rest =>
    marginLine styling b.margin "" '|' "" ++
      marginLine styling b.margin "" '=' (styling.bold "note:" ++ " " ++ first) ++
      String.join (rest.map fun l => marginLine styling b.margin "" ' ' ("      " ++ l))

/-- The block as text. -/
def render (styling : Styling) (b : Block) : String :=
  styling.apply [.bold, b.kind.color] b.kind.label ++ ": " ++ styling.bold b.title ++ "\n" ++
    (match b.source with
      | none => ""
      | some t => b.sourceLines styling t) ++
    String.join (b.notes.map (b.noteLines styling))

end Block

/-- A command that was running, in the list of all of them. -/
def Frame.render (styling : Styling) (f : Frame) : String :=
  let start := "  " ++ f.trace.place
  start ++ "  " ++ f.trace.highlighted styling ++ "\n" ++
    spaces (start.utf8ByteSize + f.trace.index) ++ "  " ++
    styling.apply [.bold, .brightYellow] (carets f.trace.width) ++ " " ++ f.operation.words

namespace Diagnostic

/-- The block about the fault. Without a place of its own it is shown at the innermost command. -/
def failureBlock (styling : Styling) (d : Diagnostic) : Block :=
  let r := d.fault.report styling
  { kind := .failure
    source := d.trace.or (d.stack.head?.map Frame.trace)
    title := r.title
    caption := r.caption
    notes := r.notes }

/-- The block about the innermost command, with all running commands if there are several. -/
def contextBlock (styling : Styling) (d : Diagnostic) (innermost : Frame) : Block :=
  { kind := .context
    source := some innermost.trace
    title := "this error occurred while " ++ innermost.operation.words ++ ":"
    caption := ""
    notes :=
      if d.stack.length > 1 then
        ["this is the full stack trace of the error:\n\n" ++
          "\n".intercalate (d.stack.map (Frame.render styling))]
      else [] }

/-- The diagnostic as text. -/
def render (styling : Styling) (d : Diagnostic) : String :=
  (d.failureBlock styling).render styling ++
    match d.trace, d.stack with
    | some _, innermost :: _ => "\n" ++ (d.contextBlock styling innermost).render styling
    | _, _ => ""

end Diagnostic

end Gullet
