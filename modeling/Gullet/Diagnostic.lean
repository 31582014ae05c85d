import Gullet.Fault

/-!
# Diagnostics

A diagnostic is a fault that has been placed: the fault with the place where it happened and the commands
that were running at the time, innermost first. Places are found when the fault happens, while the
sources are at hand.
-/

namespace Gullet

/-- What a command was doing when a fault passed through it. -/
inductive Operation where
  | expansion
  | execution
  | variableIndex
  | variableAssignment
deriving DecidableEq, Repr

/-- The name of an operation. -/
def Operation.name : Operation → String
  | expansion => "Expansion"
  | execution => "Execution"
  | variableIndex => "VariableIndex"
  | variableAssignment => "VariableAssignment"

/-- The operation in words. -/
def Operation.words : Operation → String
  | expansion => "expanding this command"
  | execution => "executing this command"
  | variableIndex => "determining the index of this variable"
  | variableAssignment => "determining the value to assign to this variable"

/-- A command that was running. -/
structure Frame where
  /-- What it was doing. -/
  operation : Operation
  /-- The command. -/
  token : Token
  /-- Where the command stands. -/
  trace : Trace

/-- A fault with its place and the commands that were running, innermost first. -/
structure Diagnostic where
  /-- The cause. -/
  fault : Fault
  /-- The place, if there is one. -/
  trace : Option Trace
  /-- The commands that were running. -/
  stack : List Frame := []

namespace Diagnostic

/-- Places a fault. -/
def ofFault (atlas : Atlas) (fault : Fault) : Diagnostic where
  fault
  trace :=
    match fault.location with
    | .token t => some (atlas.trace t)
    | .endOfInput => some atlas.traceEnd
    | .unlocated => none

/-- Adds a command that was running further out. -/
def within (d : Diagnostic) (atlas : Atlas) (operation : Operation) (t : Token) : Diagnostic :=
  { d with stack := d.stack ++ [⟨operation, t, atlas.trace t⟩] }

/-- The kind of the fault. -/
def kind (d : Diagnostic) : FaultKind := d.fault.kind

end Diagnostic

end Gullet
