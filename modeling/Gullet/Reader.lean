import Gullet.Machine.Loop

/-!
# Reading tokens

A stream is the action that reads the next token. The raw stream gives the tokens as they stand in the
input. The expanded stream expands every expandable command it meets and goes on with what the expansion
left in the input; how a command is expanded is given to it as an argument.
-/

namespace Gullet

/-- An action that reads the next token; `none` at the end of the input. -/
abbrev Stream := Run (Option Token)

/-- An action that expands the command that a token stands for. The result of the expansion is put in
front of the input, unless it is a single token that is not to be expanded again, which is given. -/
abbrev Expander := Token → Run (Option Token)

/-- How a run stops where the tokeniser gives no token. -/
def LexError.halt (atlas : Atlas) : LexError → Halt
  | invalidCharacter c key => .failed (.ofFault atlas (.invalidCharacter c key))
  | emptyControlSequence key => .failed (.ofFault atlas (.emptyControlSequence key))
  | reversedComment => .reversedSlice

namespace Stream

/-- Stops the run where the tokeniser gives no token. -/
def refuse (e : LexError) : Stream := do
  let m ← get
  throw (e.halt m.atlas)

/-- The tokens as they stand in the input. -/
def raw : Stream := do
  let m ← get
  if m.cancellation.raised then Run.fail .cancelled
  else
    let r := Input.read m.codeOf m.config.retainComments true m.input.sources
    set { m with input := ⟨r.sources⟩ }
    r.comments.forM fun c => Run.emit (.skipping c)
    match r.result with
    | .ok t => return t
    | .error e => refuse e

/-- Whether the expanded stream expands a command. Shielded macros are left alone during a full
expansion. -/
def expands (m : Machine) : Command → Bool
  | .expansion _ => true
  | .custom mac => !(mac.shielded && m.fullExpansions > 0)
  | _ => false

/-- One round of the expanded stream: reads a token and gives it, or expands it. -/
def expandedRound (x : Expander) (_ : Unit) : Run (Unit ⊕ Option Token) := do
  match ← raw with
  | none => return .inr none
  | some t =>
    match t.value with
    | .char _ _ => return .inr (some t)
    | .command ref =>
      let m ← get
      if m.input.expansionEnabled && expands m (m.lookup ref) then
        match ← x t with
        | some t' => return .inr (some t')
        | none => return .inl ()
      else return .inr (some t)

/-- The tokens that are left when every expandable command is expanded. -/
def expanded (x : Expander) : Stream := Run.loop (expandedRound x) ()

/-- The next token, which stays in the input. -/
def peek (s : Stream) : Stream := do
  match ← s with
  | none => return none
  | some t =>
    Run.pushBack t
    return some t

/-- The next token, which must exist. -/
def nextOr (s : Stream) (during : Activity) : Run Token := do
  match ← s with
  | some t => return t
  | none => Run.fail (.inputEnded during)

/-- Takes the next token if it is one that `p` accepts. -/
def take? (s : Stream) {α : Type} (p : TokenValue → Option α) : Run (Option α) := do
  match ← s with
  | none => return none
  | some t =>
    match p t.value with
    | some a => return some a
    | none =>
      Run.pushBack t
      return none

/-- Takes the next token if it is a space, and tells whether it was one. -/
def takeSpace (s : Stream) : Run Bool := do
  return (← s.take? fun v => if v.isSpace then some () else none).isSome

/-- Takes all spaces that come next. -/
def skipSpaces (s : Stream) : Run Unit :=
  Run.loop (fun () => do
    if ← s.takeSpace then return .inl () else return .inr ()) ()

/-- The next token that is no space. It must exist. -/
def nextNonSpace (s : Stream) (during : Activity) : Run Token :=
  Run.loop (fun () => do
    let t ← s.nextOr during
    if t.value.isSpace then return .inl () else return .inr t) ()

/-- All tokens up to the end of the input. -/
def drain (s : Stream) : Run (List Token) :=
  Run.loop (fun (sofar : List Token) => do
    match ← s with
    | none => return .inr sofar.reverse
    | some t => return .inl (t :: sofar)) []

end Stream

end Gullet
