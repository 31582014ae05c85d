import Gullet.Execution

/-!
# Sessions

Running the interpreter over a text: the main loop, and what stands around it. A document is read to its
end, and every group in it must be closed. Afterwards, however it went, the input is empty and no group
is open.

The main loop need not end: a command that is not expanded can put itself in front of the input again
and again. So it is given a number of tokens to process, and stops at the next one. For a document the
number grows with its text, so that no text is too long to be read.
-/

namespace Gullet.Session

/-- Reads and processes tokens to the end of the input, at most the given number of them. -/
def mainLoop : (steps : Nat) → Machine → Except Halt Unit × Machine
  | 0, m =>
    match Stream.main m with
    | (.error h, m') => (.error h, m')
    | (.ok none, m') => (.ok (), m')
    | (.ok (some _), m') => (.error .outOfSteps, m')
  | steps + 1, m =>
    match Stream.main m with
    | (.error h, m') => (.error h, m')
    | (.ok none, m') => (.ok (), m')
    | (.ok (some t), m') =>
      match Execution.process t m' with
      | (.error h, m'') => (.error h, m'')
      | (.ok (), m'') => mainLoop steps m''

/-- More steps than any run takes. -/
def stepLimit : Nat := 0x4000000000000000

/-- Demands that every group is closed. -/
def checkGroups : Run Unit := do
  match (← get).scopes.groups with
  | [] => return ()
  | g :: _ => Run.fail (.groupLeftOpen g)

/-- Closes groups, innermost first, and reports their ends. -/
def closeGroups : List Group → Machine → Machine
  | [], m => m
  | g :: outer, m =>
    closeGroups outer ((m.change (.closed g)).emit (.endGroup g))

/-- Drops the input and closes all groups. -/
def unwind (m : Machine) : Machine :=
  let m := closeGroups m.scopes.groups { m with input := {} }
  { m with expansionDepth := 0, fullExpansions := 0 }

/-- Continues with what is on the input, for at most the given number of tokens. -/
def runFor (handlers : Handlers) (steps : Nat) : Run Unit := do
  modify fun m => { m with handlers }
  mainLoop steps

/-- Continues with what is on the input. -/
def run (handlers : Handlers) : Run Unit := runFor handlers stepLimit

/-- The steps given to a document: one for each character of its text, and more than any run takes for what
expansion and execution add to it. -/
@[irreducible] def documentLimit (content : String) : Nat := stepLimit + content.length

/-- Reads a document up to its end. -/
def document (handlers : Handlers) (origin : Origin) (content : String) : Run Unit := do
  Run.emit (.beginParse origin)
  Run.openSource origin content
  runFor handlers (documentLimit content)
  checkGroups

/-- Reads a document. -/
def parse (handlers : Handlers) (origin : Origin) (content : String) : Run Unit := fun m =>
  let (result, after) :=
    document handlers origin content { m with handlers, expansions := 0, history := [] }
  (result, (unwind after).emit .endParse)

/-- Reads a document from a file. -/
def parseFile (handlers : Handlers) (path : Path) : Run Unit := do
  match (← get).files path with
  | .error reason => Run.fail (.unreadableDocument path reason)
  | .ok content => parse handlers (.file path) content

end Gullet.Session
