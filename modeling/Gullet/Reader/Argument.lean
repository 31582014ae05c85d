import Gullet.Reader.Number
import Gullet.Reader.Region

/-!
# Reading arguments

An argument is a single token, or balanced text in braces. Most arguments are read without expansion; a
label and a numerical argument are expanded after they have been read.
-/

namespace Gullet.Reader

/-- Reads balanced text up to the brace that closes it, which is dropped. Tells whether the brace was
found before the end of the input. -/
def balanced (s : Stream) : Run (Bool × List Token) :=
  Run.loop (fun ((depth, sofar) : Nat × List Token) => do
    match ← s with
    | none => return .inr (false, sofar.reverse)
    | some t =>
      if t.value.isBeginGroup then return .inl (depth + 1, t :: sofar)
      else if t.value.isEndGroup then
        match depth with
        | 0 => return .inr (true, sofar.reverse)
        | depth + 1 => return .inl (depth, t :: sofar)
      else return .inl (depth, t :: sofar)) (0, [])

/-- Reads balanced text that `opener` has begun. -/
def finishBalanced (s : Stream) (opener : Token) : Run (List Token) := do
  let (complete, ts) ← balanced s
  if complete then return ts else Run.fail (.unbalancedText opener)

/-- Reads an argument, after any number of spaces. -/
def argument : Run (List Token) := do
  Stream.raw.skipSpaces
  let t ← Stream.raw.nextOr .argument
  if t.value.isBeginGroup then finishBalanced Stream.raw t
  else if t.value.isEndGroup then Run.fail (.expected .argument (some t))
  else return [t]

/-- Takes a character of category other if it comes next, after any number of spaces. -/
def takeOther (c : Char) : Run Bool := do
  Stream.raw.skipSpaces
  let found ← Stream.raw.take? fun v => if v = .char .other c then some () else none
  return found.isSome

/-- Reads an optional argument, which stands in brackets. -/
def optionalArgument : Run (Option (List Token)) := do
  if ← takeOther '[' then
    some <$> Run.loop (fun ((depth, sofar) : Nat × List Token) => do
      let t ← Stream.raw.nextOr .optionalArgument
      if t.value.isBeginGroup then return .inl (depth + 1, t :: sofar)
      else if t.value.isEndGroup then
        match depth with
        | 0 => Run.fail (.endGroupInOptional t)
        | depth + 1 => return .inl (depth, t :: sofar)
      else if depth = 0 && t.value = .char .other ']' then return .inr sofar.reverse
      else return .inl (depth, t :: sofar)) (0, [])
  else return none

/-- The text of a label: control sequences with their escape character, and no blanks around it. -/
def labelText (ts : List Token) : String :=
  Text.trim (String.join (ts.map fun t => t.value.spelling))

/-- Reads an argument and expands it to a text. -/
def label (x : Expander) : Run String := do
  return labelText (← Stream.expandFully x (← argument))

/-- Takes a letter or other character if it comes next, after any number of spaces. -/
def modifier (c : Char) : Run Bool := do
  Stream.raw.skipSpaces
  let found ← Stream.raw.take? fun v =>
    if v = .char .other c || v = .char .letter c then some () else none
  return found.isSome

/-- Reads an argument that is a number and nothing else. -/
def numericalArgument (x : Expander) : Run Int := do
  let (n, extra) ← Run.region { tokens := ← argument } do
    let n ← number x
    return (n, ← Stream.expanded x)
  match extra with
  | none => return n
  | some t => Run.fail (.expected .endOfNumber (some t))

/-- Reads a token or a group in braces. Only the first token is expanded. -/
def object (x : Expander) : Run (Option Object) := do
  match ← Stream.expanded x with
  | none => return none
  | some t =>
    if t.value.isBeginGroup then
      let (content, closer) ← Run.loop (fun ((depth, sofar) : Nat × List Token) => do
        let t ← Stream.raw.nextOr .argument
        if t.value.isBeginGroup then return .inl (depth + 1, t :: sofar)
        else if t.value.isEndGroup then
          match depth with
          | 0 => return .inr (sofar.reverse, t)
          | depth + 1 => return .inl (depth, t :: sofar)
        else return .inl (depth, t :: sofar)) (0, [])
      return some (.group { kind := .brace, opener := t, closer := some closer, content })
    else return some (.token t)

/-- Reads a token list: balanced text in braces, or a variable that holds one. -/
def tokenList (x : Expander) : Run (List Token) := do
  let t ← (Stream.expanded x).nextNonSpace .tokenList
  let refuse : Run (List Token) := Run.fail (.expected .tokenList (some t))
  match t.value with
  | .char .beginGroup _ => finishBalanced Stream.raw t
  | .char _ _ => refuse
  | .command ref =>
    match ← Run.lookup ref with
    | .quantity v =>
      match ← variableOf x t v with
      | .tokenList index => return (← get).scopes.store.tokenList index
      | _ => refuse
    | _ => refuse

/-- Reads the name of a command, after any number of spaces. -/
def commandRef : Run CommandRef := do
  Stream.raw.skipSpaces
  match ← Stream.raw with
  | some t =>
    match t.value with
    | .command ref => return ref
    | .char _ _ => Run.fail (.expected .commandRef (some t))
  | none => Run.fail (.expected .commandRef none)

end Gullet.Reader
