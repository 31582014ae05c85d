import Gullet.Reader.Argument

/-!
# Reading files

`\input` opens a file on top of the input, and `\endinput` leaves the one that is being read.
-/

namespace Gullet

/-- Opens a text on top of the input. -/
def Run.openSource (origin : Origin) (content : String) : Run Unit :=
  modify fun m =>
    let chars := content.toList
    let (keys, atlas) := m.atlas.register origin chars
    let lexer := Lexer.start chars keys m.config.retainComments
    { m with atlas, input := m.input.enter { kind := .file lexer } }

namespace Inclusion

/-- Reads the name of a file: an argument in braces, or characters up to a space, which is dropped, or
up to any other token. -/
def fileName (x : Expander) : Run String := do
  Stream.raw.skipSpaces
  match ← Stream.raw.peek with
  | some ⟨.char .beginGroup _, _⟩ => Reader.label x
  | _ =>
    Run.loop (fun (sofar : List Char) => do
      let result := Sum.inr (String.ofList sofar.reverse)
      match ← Stream.expanded x with
      | none => return result
      | some t =>
        match t.value with
        | .char .letter c | .char .other c => return .inl (c :: sofar)
        | .char .space _ => return result
        | _ =>
          Run.pushBack t
          return result) []

/-- The path that a file name leads to. -/
def resolve (workingDirectory : Option Path) (name : String) : Path :=
  let path := Path.withDefaultExtension ⟨name⟩ "tex"
  match workingDirectory with
  | some directory => path.relativeTo directory
  | none => path

/-- The command `\input`: goes on with a file. -/
def input (x : Expander) (t : Token) : Run Unit := do
  let name ← fileName x
  if name.isEmpty then Run.fail (.missingFileName t)
  else
    let m ← get
    let path := resolve m.workingDirectory name
    match m.files path with
    | .error reason => Run.fail (.unreadableInput t path reason)
    | .ok content =>
      Run.emit (.input path)
      let bound := m.config.maxInputDepth
      if bound ≤ m.input.fileCount then
        Run.fail (.limitExceeded (some t) .inputDepth bound)
      else Run.openSource (.file path) content

/-- The command `\endinput`: leaves the current file. -/
def endInput : Run Unit := modify (·.leaveFile)

end Inclusion

end Gullet
