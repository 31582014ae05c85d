import Gullet.Execution.Assignment
import Gullet.Execution.Typesetting

/-!
# Execution

What the interpreter does with a token that is not expanded: commands are run, braces open and close
groups, and characters go to the handlers.
-/

namespace Gullet.Execution

/-- The command `\begin`: opens the group of an environment and runs the command that begins it. -/
def beginEnvironment (t : Token) : Run Unit := do
  let name ← Definition.environmentName t
  Run.beginGroup (.environment name) t
  let ref := Definition.beginning name
  if (← Run.lookup ref).isDefined then Run.pushTokens [⟨.command ref, t.key⟩]
  else Run.recoverable (.environmentUndefined t name)

/-- The command `\end`: runs the command that ends an environment, if there is one, and then closes
its group. -/
def endEnvironment (t : Token) : Run Unit := do
  let name ← Definition.environmentName t
  let ref := Definition.ending name
  let ender := if (← Run.lookup ref).isDefined then [⟨.command ref, t.key⟩] else []
  Run.pushTokens (ender ++ [.controlSequence "@endenvironment" t.key,
    .char .beginGroup '\x7b' t.key] ++ Token.ofText name t.key ++ [.char .endGroup '\x7d' t.key])

/-- The command `\@endenvironment`: closes the group of an environment, which must be the innermost
one. -/
def closeEnvironment (t : Token) : Run Unit := do
  let name ← Definition.environmentName t
  match (← get).scopes.groups.head?.map Group.kind with
  | some (.environment opened) =>
    if opened = name then Run.endGroup (.environment name) t
    else Run.fail (.environmentMismatch t opened name)
  | _ => Run.endGroup (.environment name) t

/-- Runs a primitive. -/
def primitive (t : Token) : ExecutionPrimitive → Run Unit
  | .arithmetic op => Assignment.arithmetic op t
  | .beginEnvironment => beginEnvironment t
  | .beginGroup => Run.beginGroup .semisimple t
  | .closeEnvironment => closeEnvironment t
  | .color => Typesetting.color
  | .define everywhere expanded => Definition.define everywhere expanded
  | .endCsname => Run.fail (.extraEndCsname t)
  | .endEnvironment => endEnvironment t
  | .endGroup => Run.endGroup .semisimple t
  | .href => Typesetting.href
  | .includeGraphics => Typesetting.includeGraphics
  | .letMeaning => Definition.letMeaning
  | .makeAt code => Assignment.atSign code
  | .message => Typesetting.message
  | .newCommand policy => Definition.command policy t
  | .newEnvironment renew => Definition.environment renew t
  | .newIf => Definition.newSwitch t
  | .par => Run.emit .par
  | .modifier kind => Assignment.modifier kind t
  | .nameRegister kind => Definition.nameRegister kind
  | .relax => return ()
  | .switch change => Run.mapSettings fun s => change.apply s
  | .styled change => Typesetting.styled change t
  | .showMeaning => Typesetting.showMeaning
  | .textColor => Typesetting.textColor t
  | .verb => Typesetting.verb t

/-- Collects a token. -/
def collect (t : Token) : Run Unit :=
  modify fun m => { m with output.collected := t :: m.output.collected }

/-- A character that is neither a brace nor a math shift. -/
def character (t : Token) (category : CharCategory) (c : Char) : Run Unit := do
  match (← get).handlers with
  | .dropping => return ()
  | .writing => Typesetting.typeset t category c
  | .collecting _ => collect t

/-- A command that stands for nothing. -/
def undefined (t : Token) (ref : CommandRef) : Run Unit := do
  let m ← get
  match m.handlers with
  | .collecting true => collect t
  | .collecting false => Run.recoverable (← Run.undefinedFault t)
  | .dropping | .writing =>
    let fault ← Run.undefinedFault t
    if m.config.strictUndefined then Run.fail fault
    else
      Run.recoverable fault
      Run.emit (.substituting ref.text "")

/-- A command that could have been expanded. -/
def unexpanded (t : Token) : Run Unit := do
  match (← get).handlers with
  | .dropping | .writing => return ()
  | .collecting _ => collect t

/-- A character token, or a command that stands for one. -/
def processChar (t : Token) (category : CharCategory) (c : Char) : Run Unit :=
  match category with
  | .beginGroup => Run.beginGroup .brace t
  | .endGroup => Run.endGroup .brace t
  | .mathShift => Typesetting.mathShift t
  | _ => character t category c

/-- Processes a token. -/
def process (t : Token) : Run Unit := do
  match t.value with
  | .char category c => processChar t category c
  | .command ref =>
    match ← Run.lookup ref with
    | .execution p => Run.during .execution t (primitive t p)
    | .quantity v => Assignment.ofVariable t v
    | .character category c => processChar (.char category c t.key) category c
    | .expansion _ | .custom _ => unexpanded t
    | .undefined => undefined t ref

end Gullet.Execution
