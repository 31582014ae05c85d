import Gullet.Expansion.Conditional
import Gullet.Expansion.Conversion
import Gullet.Expansion.File
import Gullet.Macro.Call

/-!
# Expansion

Expanding a command replaces it by tokens in front of the input. Commands read their operands from the
input, expanding what they meet; so expansion calls itself, and how deep it may do so is limited.
-/

namespace Gullet

namespace Expansion

/-- The command `\expandafter`: expands the token after the next one, if it can be expanded. -/
def afterNext (x : Expander) (t : Token) : Run Unit := do
  match ← Stream.raw with
  | none => Run.fail (.expandAfterFirst t)
  | some first =>
    match ← Stream.raw with
    | none => Run.fail (.expandAfterSecond first)
    | some second =>
      let m ← get
      if m.input.expansionEnabled && m.scopes.bindings.canExpand second then
        (← x second).forM Run.pushBack
      else Run.pushBack second
      Run.pushBack first

/-- The command `\noexpand`: gives the next token without expanding it. -/
def held (t : Token) : Run (Option Token) := do
  if (← get).policy.honoursNoExpand then
    match ← Stream.raw with
    | none => Run.fail (.noExpandAtEnd t)
    | some next => return some next
  else Run.fail .noExpandUnsupported

/-- The command `\@testopt`: reads a command and a default value, and puts the command in front of
the input again, followed by the default value in brackets unless a bracket comes next. -/
def supplyDefault (t : Token) : Run Unit := do
  let target ← Reader.argument
  let default ← Reader.argument
  Stream.raw.skipSpaces
  match ← Stream.raw.peek with
  | some ⟨.char .other '[', _⟩ => Run.pushTokens target
  | _ =>
    Run.pushTokens (target ++ [.char .other '[' t.key, .char .beginGroup '\x7b' t.key] ++ default ++
      [.char .endGroup '\x7d' t.key, .char .other ']' t.key])

/-- Expands a primitive. Only `\noexpand` gives a token. -/
def primitive (x : Expander) (t : Token) : ExpansionPrimitive → Run (Option Token)
  | .noExpand => held t
  | .supplyDefault => quiet (supplyDefault t)
  | .csname => quiet (Conversion.name x t)
  | .detokenize => quiet (Conversion.written t)
  | .elseBranch => quiet (Conditional.endHolding t)
  | .endInput => quiet Inclusion.endInput
  | .expandAfter => quiet (afterNext x t)
  | .endIf => quiet (Conditional.endConditional t)
  | .ifCase => quiet do Conditional.chooseCase t (← Reader.number x)
  | .ifDefined => quiet do Conditional.choose t (← Conditional.nextIsDefined)
  | .ifFalse => quiet (Conditional.choose t false)
  | .ifNum => quiet do Conditional.choose t (← Conditional.numbersCompare x)
  | .ifOdd => quiet do Conditional.choose t ((← Reader.number x) % 2 ≠ 0)
  | .ifTrue => quiet (Conditional.choose t true)
  | .ifSame => quiet do Conditional.choose t (← Conditional.meaningsAgree)
  | .input => quiet (Inclusion.input x t)
  | .meaning => quiet (Conversion.meaning t)
  | .number => quiet (Conversion.decimal x t)
  | .nextCase => quiet (Conditional.endCase t)
  | .romanNumeral => quiet (Conversion.roman x t)
  | .string => quiet (Conversion.spelling t)
  | .the => quiet (Conversion.value x t)
where
  /-- An action that gives no token. -/
  quiet (action : Run Unit) : Run (Option Token) := do
    action
    return none

/-- Runs an action one level deeper. -/
def deeper {α : Type} (t : Token) (action : Run α) : Run α := fun m =>
  let bound := m.config.maxExpansionDepth
  if bound ≤ m.expansionDepth then
    Run.fail (.limitExceeded (some t) .expansionDepth bound) m
  else
    let (result, after) := action { m with expansionDepth := m.expansionDepth + 1 }
    (result, { after with expansionDepth := after.expansionDepth - 1 })

/-- Counts an expansion. -/
def count (t : Token) : Run Unit := do
  modify fun m => { m with expansions := m.expansions + 1 }
  let m ← get
  if m.config.maxExpansions < m.expansions then
    Run.fail (.limitExceeded (some t) .expansionCount m.config.maxExpansions)

/-- Expands the command that a token stands for, with at most `levels` expansions inside one another.
A token that stands for nothing expandable vanishes. -/
def expandWithin : (levels : Nat) → Expander
  | 0, _ => throw .outOfSteps
  | levels + 1, t => do
    match t.value with
    | .char _ _ => return none
    | .command ref =>
      count t
      match ← Run.lookup ref with
      | .expansion p =>
        deeper t (Run.during .expansion t (primitive (expandWithin levels) t p))
      | .custom m =>
        Run.during .expansion t (m.call t)
        return none
      | _ => return none

end Expansion

/-- Expands the command that a token stands for. The limit on nesting is reached before the levels are
used up. -/
def expand : Expander := fun t => do
  Expansion.expandWithin ((← get).config.maxExpansionDepth + 1) t

namespace Stream

/-- The expanded stream of the interpreter. -/
def main : Stream := expanded expand

/-- Expands the next token once, in place. Tells whether it could be expanded. -/
def expandNext : Run Bool := do
  match ← raw with
  | none => return false
  | some t =>
    let m ← get
    if m.input.expansionEnabled && m.scopes.bindings.canExpand t then
      (← expand t).forM Run.pushBack
      return true
    else
      Run.pushBack t
      return false

end Stream

/-- Removes the capture that stands above the lowest `height` sources, if it is still there. Gives the
tokens that were pending in it. -/
def Input.takeCapture (height : Nat) (sources : List InputSource) :
    List Token × List InputSource :=
  let (above, below) := sources.splitAt (sources.length - height)
  match above.getLast? with
  | some { kind := .capture, pending } => (pending.tokens, above.dropLast ++ below)
  | _ => ([], sources)

/-- Expands a token once, and gives the tokens that it expands to, or nothing if it cannot be expanded.
Operands are read from the input. -/
def expandOnce (t : Token) : Run (Option (List Token)) := do
  let m ← get
  if m.scopes.bindings.canExpand t then
    set { m with input := m.input.enter { kind := .capture } }
    let result ← try Except.ok <$> expand t catch h => pure (.error h)
    let m' ← get
    let (captured, sources) := Input.takeCapture m.input.sources.length m'.input.sources
    set { m' with input := ⟨sources⟩ }
    match result with
    | .ok held => return some (held.toList ++ captured)
    | .error h => throw h
  else return none

end Gullet
