import Gullet.Reader.Number

/-!
# Conditionals

A condition that holds opens a branch and leaves it to be read. One that does not hold skips the branch
without expanding it, and goes on with the branch for the other case, if there is one. While skipping,
only the tags of commands matter, and conditionals inside are passed over as a whole.
-/

namespace Gullet.Conditional

/-- Reads a token and the tag of the command that it stands for. -/
def nextTag : Run (Option (Option Tag)) := do
  match ← Stream.raw with
  | none => return none
  | some t => return some ((← get).scopes.bindings.tagOf? t)

/-- Whether a tag ends a branch that is skipped at no depth. -/
def divider? (atElse atCase : Bool) : Tag → Option Divider
  | .endIf => some .endIf
  | .elseBranch => if atElse then some .elseBranch else none
  | .nextCase => if atCase then some .nextCase else none
  | _ => none

/-- Skips tokens up to the divider that ends the branch, which is dropped. -/
def skip (t : Token) (atElse atCase : Bool) (part : SkippedPart) : Run Divider :=
  Run.loop (fun (depth : Nat) => do
    match ← nextTag with
    | none => Run.fail (.conditionalLeftOpen t part)
    | some none => return .inl depth
    | some (some tag) =>
      match depth, tag with
      | depth, .conditional => return .inl (depth + 1)
      | depth + 1, .endIf => return .inl depth
      | 0, tag =>
        match divider? atElse atCase tag with
        | some d => return .inr d
        | none => return .inl 0
      | depth, _ => return .inl depth) 0

/-- Opens a branch. -/
def openBranch (b : Branch) : Run Unit := modify fun m => { m with branches := b :: m.branches }

/-- Closes the innermost branch. -/
def closeBranch : Run Unit := modify fun m => { m with branches := m.branches.tail }

/-- Goes on with the branch for a condition that holds or does not. -/
def choose (t : Token) (condition : Bool) : Run Unit := do
  if condition then openBranch ⟨t, .holds⟩
  else
    match ← skip t true false .trueBranch with
    | .elseBranch => openBranch ⟨t, .otherwise⟩
    | .nextCase | .endIf => return ()

/-- Goes on with the case of a number. A negative number has none. -/
def chooseCase (t : Token) (n : Int) : Run Unit :=
  Run.loop (fun (n : Int) => do
    if n = 0 then
      openBranch ⟨t, .case⟩
      return .inr ()
    else
      match ← skip t true true .cases with
      | .nextCase => return .inl (n - 1)
      | .elseBranch =>
        openBranch ⟨t, .otherwise⟩
        return .inr ()
      | .endIf => return .inr ()) n

/-- Compares two numbers. -/
def numbersCompare (x : Expander) : Run Bool := do
  let a ← Reader.number x
  let relation ← (Stream.expanded x).relation
  let b ← Reader.number x
  return compare a b = relation

/-- Whether two tokens have the same meaning. -/
def meaningsAgree : Run Bool := do
  let a ← Stream.raw.nextOr .firstCompared
  let b ← Stream.raw.nextOr .secondCompared
  let bindings := (← get).scopes.bindings
  return (bindings.meaningOf a.value).sameMeaning (bindings.meaningOf b.value)

/-- Whether the next token stands for something. -/
def nextIsDefined : Run Bool := do
  let t ← Stream.raw.nextOr .definedTest
  return ((← get).scopes.bindings.meaningOf t.value).isDefined

/-- The command `\or`: ends the case of a switch. -/
def endCase (t : Token) : Run Unit := do
  match (← get).branches with
  | ⟨opener, .case⟩ :: _ =>
    closeBranch
    _ ← skip opener false false .remainingCases
  | _ => Run.fail (.unexpectedDivider t .nextCase)

/-- The command `\else`: ends a branch that is not itself the other one. -/
def endHolding (t : Token) : Run Unit := do
  match (← get).branches with
  | ⟨opener, .holds⟩ :: _ | ⟨opener, .case⟩ :: _ =>
    closeBranch
    _ ← skip opener false false .falseBranch
  | _ => Run.fail (.unexpectedDivider t .elseBranch)

/-- The command `\fi`: ends a conditional. -/
def endConditional (t : Token) : Run Unit := do
  match (← get).branches with
  | _ :: _ => closeBranch
  | [] => Run.fail (.unexpectedDivider t .endIf)

end Gullet.Conditional
