import Gullet.Expansion

/-!
# Definitions

The commands that bind names: to macros, with parameters written out or counted, and to the meanings of
other tokens.
-/

namespace Gullet

/-- The index of the parameter that a digit names. -/
def parameterIndex? (c : Char) : Option Nat :=
  if '1' ≤ c && c ≤ '9' then some (c.toNat - '1'.toNat) else none

namespace Replacement

/-- One more token in front of a replacement text. Tokens that stand together form one piece. -/
def consToken (t : Token) : List Replacement → List Replacement
  | .tokens ts :: rest => .tokens (t :: ts) :: rest
  | rest => .tokens [t] :: rest

/-- One more token at the end of a replacement text. -/
def concatToken (r : List Replacement) (t : Token) : List Replacement :=
  match r.getLast? with
  | some (.tokens ts) => r.dropLast ++ [.tokens (ts ++ [t])]
  | _ => r ++ [.tokens [t]]

/-- The parameter that a token after a parameter token names. -/
def parameterOf? (count : Nat) (t : Token) : Option Nat :=
  match t.value with
  | .char _ c => (parameterIndex? c).filter (· < count)
  | .command _ => none

/-- The replacement text that a macro with `count` parameters gets from tokens. A parameter token makes a
parameter of the digit after it, and is dropped before another parameter token. -/
def ofTokens (count : Nat) : List Token → Except Fault (List Replacement)
  | [] => return []
  | ⟨.char .parameter c, key⟩ :: rest =>
    match rest with
    | [] => throw (.parameterAtEnd ⟨.char .parameter c, key⟩)
    | next :: rest =>
      match next.value with
      | .char .parameter _ => return consToken next (← ofTokens count rest)
      | _ =>
        match parameterOf? count next with
        | some index => return .parameter index :: (← ofTokens count rest)
        | none => throw (.noSuchParameter next count)
  | t :: rest => return consToken t (← ofTokens count rest)

end Replacement

/-- The part of a definition between the name and the replacement text. -/
structure ParameterText where
  /-- The tokens that must follow the name. -/
  lead : List Token := []
  /-- The delimiters of the parameters. An undelimited parameter has an empty one. -/
  delimiters : List (List Token) := []

namespace ParameterText

/-- Adds a token: to the delimiter of the last parameter, if there is one. -/
def add (p : ParameterText) (t : Token) : ParameterText :=
  match p.delimiters.getLast? with
  | none => { p with lead := p.lead ++ [t] }
  | some d => { p with delimiters := p.delimiters.dropLast ++ [d ++ [t]] }

/-- Adds a parameter. -/
def addParameter (p : ParameterText) : ParameterText :=
  { p with delimiters := p.delimiters ++ [[]] }

/-- The parameters. -/
def parameters (p : ParameterText) : List Parameter :=
  p.delimiters.map fun
    | [] => .undelimited
    | d => .delimited (.ofList (d.map Token.value))

end ParameterText

namespace Definition

/-- Stops the run if there is a fault instead of a value. -/
def orFail {α : Type} : Except Fault α → Run α
  | .ok a => return a
  | .error f => Run.fail f

/-- Binds a name to a macro. -/
def bindMacro (scope : Scope) (name : CommandRef) (m : Macro) : Run Unit :=
  Run.bindRef scope name (.custom m)

/-- Reads the part of a definition between the name and the replacement text. Gives the brace that opens
the replacement text, and whether it is a delimiter too. -/
def parameterText : Run (ParameterText × Token × Bool) :=
  Run.loop (fun (p : ParameterText) => do
    let t ← Stream.raw.nextOr .parameterText
    match t.value with
    | .char .beginGroup _ => return .inr (p, t, false)
    | .char .endGroup _ => Run.fail (.endGroupInParameterText t)
    | .char .parameter _ => do
      let next ← Stream.raw.nextOr .parameterNumber
      match next.value with
      | .char .beginGroup _ => return .inr (p.add next, next, true)
      | .command _ => Run.fail (.controlSequenceAfterParameter next)
      | .char _ c =>
        match parameterIndex? c with
        | none => Run.fail (.characterAfterParameter next)
        | some index =>
          let already := p.delimiters.length
          if index = already then return .inl p.addParameter
          else Run.fail (.parameterOutOfOrder next (index + 1) already)
    | _ => return .inl (p.add t)) {}

/-- The command `\def` and its kin: binds a name to a macro. -/
def define (everywhere expanded : Bool) : Run Unit := do
  let prefixes := (← get).prefixes
  modify fun m => { m with prefixes := {} }
  let name ← Reader.commandRef
  let (p, opener, closing) ← parameterText
  let body ← Reader.finishBalanced Stream.raw opener
  let body ← if expanded then Stream.expandFully expand body else pure body
  let replacement ← orFail (Replacement.ofTokens p.delimiters.length body)
  bindMacro (if everywhere || prefixes.everywhere then .everywhere else .inner) name
    { long := prefixes.long
      shielded := prefixes.shielded
      lead := p.lead
      parameters := p.parameters
      replacement := if closing then Replacement.concatToken replacement opener else replacement }

/-- How many parameters a command has, and the default value of the first one if it is optional. -/
structure Signature where
  count : Nat
  default : Option (List Token)

/-- The number of parameters that a text says. -/
def parameterCount? (s : String) : Option Nat :=
  let chars := (Text.trim s).toList
  let digits := if chars.head? = some '+' then chars.tail else chars
  if digits.isEmpty then none
  else
    let count := digits.foldl (fun n? c => do return (← n?) * 10 + (← Reader.decimalDigit? c)) (some 0)
    count.filter (· ≤ 9)

/-- Reads the number of parameters and the default value, which both are optional. -/
def signature (t : Token) : Run Signature := do
  match ← Reader.optionalArgument with
  | none => return { count := 0, default := none }
  | some ts =>
    match parameterCount? (Token.write ts) with
    | none => Run.fail (.invalidParameterCount (ts.head?.getD t))
    | some 0 => return { count := 0, default := none }
    | some count => return { count, default := ← Reader.optionalArgument }

/-- The macro for a command with an optional first argument: it looks whether the argument is there and
goes on with `inner`, which finds the argument in brackets. -/
def dispatcher (key : SourceKey) (inner : CommandRef) (default : List Token) : Macro where
  replacement :=
    [.tokens ([.controlSequence "@testopt" key, ⟨.command inner, key⟩,
      .char .beginGroup '\x7b' key] ++ default ++ [.char .endGroup '\x7d' key])]

/-- The name under which the command behind a dispatcher is bound. -/
def innerName (name : CommandRef) : CommandRef := .controlSequence name.text

/-- Binds a name to a macro with counted parameters. -/
def bindCounted (t : Token) (name : CommandRef) (s : Signature) (body : List Token) (long : Bool) :
    Run Unit := do
  let replacement ← orFail (Replacement.ofTokens s.count body)
  match s.default with
  | none =>
    bindMacro .inner name
      { long, replacement, parameters := List.replicate s.count .undelimited }
  | some default =>
    let inner := innerName name
    bindMacro .inner inner
      { long
        replacement
        lead := [.char .other '[' t.key]
        parameters :=
          .delimited (.ofList [.char .other ']']) :: List.replicate (s.count - 1) .undelimited }
    bindMacro .inner name (dispatcher t.key inner default)

/-- Reads the name of a command that is defined. -/
def commandName (t : Token) : Run CommandRef := do
  let ts ← Reader.argument
  match ts with
  | [⟨.command ref, _⟩] => return ref
  | _ => Run.fail (.expected .commandName (some (ts.head?.getD t)))

/-- The command `\newcommand` and its kin: binds a name to a macro with counted parameters. -/
def command (policy : DefinitionPolicy) (t : Token) : Run Unit := do
  let short ← Reader.modifier '*'
  let name ← commandName t
  let s ← signature t
  let body ← Reader.argument
  let bound := (← Run.lookup name).isDefined
  match policy, bound with
  | .new, true => Run.recoverable (.commandExists t name.text)
  | .provide, true => return ()
  | .renew, false =>
    Run.recoverable (.commandMissing t name.text)
    bindCounted t name s body !short
  | _, _ => bindCounted t name s body !short

/-- Reads the name of an environment, which must not be empty. -/
def environmentName (t : Token) : Run String := do
  let name ← Reader.label expand
  if name.isEmpty then Run.fail (.missingEnvironmentName t) else return name

/-- The name of the command that begins an environment. -/
def beginning (name : String) : CommandRef := .controlSequence name

/-- The name of the command that ends an environment. -/
def ending (name : String) : CommandRef := .controlSequence ("end" ++ name)

/-- The command `\newenvironment` and its kin: binds the names of the commands that begin and end an
environment. -/
def environment (renew : Bool) (t : Token) : Run Unit := do
  let short ← Reader.modifier '*'
  let name ← environmentName t
  let s ← signature t
  let first ← Reader.argument
  let last ← Reader.argument
  let bindBoth : Run Unit := do
    bindCounted t (beginning name) s first !short
    bindCounted t (ending name) { count := 0, default := none } last !short
  let bound := (← Run.lookup (beginning name)).isDefined
  match renew, bound with
  | false, true => Run.recoverable (.environmentExists t name)
  | true, false =>
    Run.recoverable (.environmentMissing t name)
    bindBoth
  | _, _ => bindBoth

/-- The command `\let`: gives a name the meaning of a token. -/
def letMeaning : Run Unit := do
  let scope ← Run.takeScope
  let name ← Reader.commandRef
  Stream.raw.optionalEquals
  let t ← Stream.raw.nextOr .letMeaning
  let t ← if t.value.isSpace then Stream.raw.nextOr .letMeaning else pure t
  Run.bindToken scope name t

/-- The part of a switch's name after `if`. -/
def switchName? : CommandRef → Option String
  | .active _ => none
  | .controlSequence name =>
    match name.toList with
    | 'i' :: 'f' :: c :: rest => some (String.ofList (c :: rest))
    | _ => none

/-- The command `\newif`: binds a switch, which is off, and the commands that turn it on and off. -/
def newSwitch (t : Token) : Run Unit := do
  let scope ← Run.takeScope
  let ref ← Reader.commandRef
  match switchName? ref with
  | none => Run.fail (.invalidSwitchName t ref.text)
  | some name =>
    let setter (value : String) : Macro :=
      { replacement :=
          [.tokens [.controlSequence "let" t.key, ⟨.command ref, t.key⟩,
            .controlSequence value t.key]] }
    bindMacro scope (.controlSequence (name ++ "true")) (setter "iftrue")
    bindMacro scope (.controlSequence (name ++ "false")) (setter "iffalse")
    Run.bindRef scope ref (.expansion .ifFalse)

/-- The command `\countdef` and its kin: binds a name to a register. -/
def nameRegister (kind : RegisterKind) : Run Unit := do
  let scope ← Run.takeScope
  let name ← Reader.commandRef
  Stream.main.optionalEquals
  let index ← Reader.natural expand kind.number
  Run.bindRef scope name (.quantity (.fixed (kind.register index)))

end Definition

end Gullet
