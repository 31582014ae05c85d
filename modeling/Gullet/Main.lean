import Gullet.CommandLine

/-!
# The program

Reads the arguments, runs the command and prints what it gives.

A command asks for files while it runs, and what it does depends only on the texts it has got so far.
So it is run on the files that have been read; when it stops at one that has not been read yet, that
file is read and the command is run again. A run whose time is limited is allowed few expansions at
first and more as long as there is time, because a run cannot be stopped from outside.
-/

namespace Gullet.Program

open CommandLine

/-- The files that have been read, or the reasons why they could not be. -/
abbrev KnownFiles := List (Path × Except String String)

/-- The files that have been read. -/
def KnownFiles.system (known : KnownFiles) : FileSystem := fun path =>
  match known.lookup path with
  | some answer => answer
  | none => .error "not read yet"

/-- The file at which a command stopped. -/
def wantedFile? (o : Outcome) : Option Path :=
  match o.failure with
  | some (.faulty d) =>
    match d.fault with
    | .unreadableDocument path _ => some path
    | .unreadableInput _ path _ => some path
    | _ => none
  | _ => none

/-- Why a file cannot be read. -/
def reason : IO.Error → String
  | .noFileOrDirectory .. => "No such file or directory (os error 2)"
  | .permissionDenied .. => "Permission denied (os error 13)"
  | .inappropriateType .. => "Is a directory (os error 21)"
  | e => toString e

/-- Reads a file. -/
def readFile (path : Path) : IO (Except String String) := do
  try return .ok (← IO.FS.readFile path.text)
  catch e => return .error (reason e)

/-- Whether a command stopped because it was allowed no more expansions. -/
def isExhausted (o : Outcome) : Bool :=
  match o.failure with
  | some (.faulty d) =>
    match d.fault with
    | .limitExceeded _ .expansionCount _ => true
    | _ => false
  | _ => false

/-- The number of expansions that are allowed at first in a run whose time is limited. -/
def firstAllowance : Nat := 32768

/-- The invocation with a limit on expansions. -/
def limited (expansions : Nat) : Invocation → Invocation
  | .run file options => .run file { options with maxExpansions := some expansions }
  | .doc name => .doc name

/-- Runs a command on the known files, and again with each file that it asks for, or with a greater
allowance when it has used up one that is below its limit. No run is begun after the deadline. -/
partial def execute (styling : Text.Styling) (directory : Path) (limit : Nat) (deadline : Option Nat)
    (invocation : Invocation) (allowance : Nat) (known : KnownFiles) : IO Outcome := do
  let again := execute styling directory limit deadline invocation
  let outcome :=
    CommandLine.execute styling known.system (some directory) (limited allowance invocation)
  match wantedFile? outcome with
  | some path =>
    if (known.lookup path).isSome then return outcome
    else again allowance ((path, ← readFile path) :: known)
  | none =>
    if allowance < limit && isExhausted outcome then
      if (← IO.monoMsNow) < deadline.getD 0 then again (min limit (2 * allowance)) known
      else return { outcome with failure := some (.faulty (.ofFault {} .cancelled)) }
    else return outcome

/-- Runs a command. -/
def executeInTime (styling : Text.Styling) (directory : Path) (invocation : Invocation)
    (options : RunOptions) : IO Outcome := do
  let limit := options.maxExpansions.getD ({} : Config).maxExpansions
  match options.timeout with
  | none => execute styling directory limit none invocation limit []
  | some milliseconds =>
    let deadline := (← IO.monoMsNow) + milliseconds
    execute styling directory limit (some deadline) invocation (min limit firstAllowance) []

/-- Whether output is styled: on a terminal, unless the environment says otherwise. -/
def chooseStyling : IO Text.Styling := do
  let isOn (s : String) : Bool := s ≠ "0"
  let forced := (← IO.getEnv "CLICOLOR_FORCE").any isOn
  let refused := (← IO.getEnv "NO_COLOR").isSome
  let wanted := (← IO.getEnv "CLICOLOR").all isOn
  let terminal ← (← IO.getStdout).isTty
  return if forced || (!refused && wanted && terminal) then .styled else .plain

/-- The options that a command runs with. -/
def optionsOf : Invocation → RunOptions
  | .run _ options => options
  | .doc _ => {}

/-- Prints what a command gives. The result is the exit code. -/
def report (styling : Text.Styling) (json : Bool) (o : Outcome) : IO UInt32 := do
  let errors ← IO.getStderr
  errors.putStr o.terminal
  for d in o.warnings do
    errors.putStrLn (reportText styling json d)
  IO.print o.output
  match o.failure with
  | none => return 0
  | some failure =>
    errors.putStrLn (failure.text styling json)
    return 1

end Gullet.Program

open Gullet in
/-- The program. -/
def main (args : List String) : IO UInt32 := do
  match CommandLine.parse args with
  | .error e =>
    match e with
    | .helpRequested | .versionRequested =>
      IO.println e.text
      return 0
    | _ =>
      (← IO.getStderr).putStrLn e.text
      return 2
  | .ok invocation =>
    let options := Program.optionsOf invocation
    let styling ← Program.chooseStyling
    let directory : Path := ⟨(← IO.currentDir).toString⟩
    let outcome ← Program.executeInTime styling directory invocation options
    Program.report styling options.json outcome
