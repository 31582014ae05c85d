import Gullet.Reader.Argument

/-!
# Calling macros

A call reads what must follow the macro's name and its arguments, all without expansion, and puts the
replacement text with the arguments in place of the parameters in front of the input.
-/

namespace Gullet.Macro

/-- Reads the tokens that must follow the macro's name. -/
def matchLead (name : String) : List Token → Run Unit
  | [] => return ()
  | want :: rest => do
    let t ← Stream.raw.nextOr .macroLead
    if t.value = want.value then matchLead name rest
    else Run.fail (.macroMismatch t name)

/-- Reads an undelimited argument, the `number`th of the macro. -/
def undelimitedArgument (number : Nat) : Run (List Token) := do
  let t ← Stream.raw.nextNonSpace (.undelimitedArgument number)
  if t.value.isBeginGroup then Reader.finishBalanced Stream.raw t else return [t]

/-- How the depth of braces changes at a token. -/
def depthChange (v : TokenValue) : Int :=
  if v.isBeginGroup then 1 else if v.isEndGroup then -1 else 0

/-- The depth of braces at which a delimiter is found. A brace at its end has been counted by then. -/
def closingDepth (delimiter : Array TokenValue) : Int :=
  match delimiter.back? with
  | some (.char .beginGroup _) => 1
  | _ => 0

/-- Whether the tokens after an opening brace close it before the last of them. -/
def closesEarly : Nat → List Token → Bool
  | _, [] | _, [_] => false
  | depth, t :: rest =>
    if t.value.isBeginGroup then closesEarly (depth + 1) rest
    else if t.value.isEndGroup then depth ≤ 1 || closesEarly (depth - 1) rest
    else closesEarly depth rest

/-- The content of an argument that is a single group in braces, and any other argument itself: the
braces are cut off `{ab}` but not off `{a}{b}`. -/
def withoutBraces (ts : List Token) : List Token :=
  match ts, ts.getLast? with
  | first :: second :: rest, some last =>
    if first.value.isBeginGroup && last.value.isEndGroup && !closesEarly 1 (second :: rest) then
      (second :: rest).dropLast
    else ts
  | _, _ => ts

/-- Reads a delimited argument, the `number`th of the macro: everything up to the first occurrence of
the delimiter outside braces. -/
def delimitedArgument (number : Nat) (delimiter : Matcher TokenValue) : Run (List Token) := do
  let closing := closingDepth delimiter.pattern
  let ts ← Run.loop (fun ((depth, matched, sofar) : Int × Nat × List Token) => do
    let t ← Stream.raw.nextOr (.delimitedArgument number delimiter.pattern.size)
    let depth := depth + depthChange t.value
    let (matched, hit) := delimiter.feed matched t.value
    if hit && depth = closing then
      return .inr ((t :: sofar).drop delimiter.pattern.size).reverse
    else return .inl (depth, matched, t :: sofar)) (0, 0, [])
  return withoutBraces ts

/-- Reads the arguments of the parameters, the first of which has the given number. -/
def readArguments : Nat → List Parameter → Run (List (List Token))
  | _, [] => return []
  | number, p :: rest => do
    let ts ←
      match p with
      | .undelimited => undelimitedArgument number
      | .delimited delimiter => delimitedArgument number delimiter
    return ts :: (← readArguments (number + 1) rest)

/-- What is written about a call: the definition and each argument. -/
def callText (m : Macro) (name : String) (arguments : List (List Token)) : String :=
  let shown := arguments.mapIdx fun i ts => parameterText i ++ "<-" ++ Token.write ts ++ "\n"
  name ++ " " ++ m.definition ++ "\n" ++ String.join shown

/-- Writes about a call if the user has asked for it: at level one to the log, above it to the terminal
too. -/
def traceCall (m : Macro) (name : String) (arguments : List (List Token)) : Run Unit := do
  let level := (← get).scopes.store.int .tracingMacros
  if 0 < level then
    Run.writeLog (m.callText name arguments)
    if 1 < level then Run.writeTerminal (m.callText name arguments)

/-- Expands a macro that was called by the given token. -/
def call (m : Macro) (t : Token) : Run Unit := do
  let name := t.value.spelling
  matchLead name m.lead
  let arguments ← readArguments 1 m.parameters
  match arguments.flatten.find? (·.value = .par) with
  | some par => if m.long then replace name arguments else Run.fail (.paragraphInArgument par)
  | none => replace name arguments
where
  /-- Puts the replacement text in front of the input. -/
  replace (name : String) (arguments : List (List Token)) : Run Unit := do
    Run.pushTokens (fill m.replacement arguments)
    m.traceCall name arguments

end Gullet.Macro
