import Gullet.Command.Vocabulary
import Gullet.Diagnostic.Rendering
import Gullet.Event
import Gullet.FileSystem
import Gullet.Input

/-!
# The machine

The state of the interpreter, and actions on it. An action may stop the run; the state that it has
reached by then stays.

The state has these parts: the input, with a record of the files that have been left; what is subject to
grouping (`Scopes`); what has been given out (`Output`); the counters that limits refer to; the open
branches of conditionals; the prefixes that wait for an assignment; and what the host has chosen
(`Config`, `Policy`).
-/

namespace Gullet

/-- The limits and policies that the host can change. -/
structure Config where
  /-- The greatest number of expansions in one parse. -/
  maxExpansions : Nat := 1000000
  /-- The greatest nesting of expansion primitives and regions. -/
  maxExpansionDepth : Nat := 500
  /-- The greatest number of files open at once. -/
  maxInputDepth : Nat := 64
  /-- Whether undefined commands are fatal. -/
  strictUndefined : Bool := false
  /-- Whether comments are reported. -/
  retainComments : Bool := false
deriving Repr, Inhabited

/-- What happens to a failure from which the interpreter can recover. -/
inductive Recovery where
  /-- It is reported as a warning. -/
  | report
  /-- It is fatal. -/
  | refuse
  /-- It is counted. -/
  | tally
deriving DecidableEq, Repr, Inhabited

/-- What the kind of interpreter determines. -/
structure Policy where
  /-- What happens to a failure from which the interpreter can recover. -/
  recovery : Recovery := .report
  /-- Whether `\noexpand` works. -/
  honoursNoExpand : Bool := true
deriving Repr, Inhabited

/-- What happens to tokens that are neither commands nor braces. -/
inductive Handlers where
  /-- Characters are dropped. -/
  | dropping
  /-- Characters are written. -/
  | writing
  /-- Characters are collected; whether undefined commands are collected too. -/
  | collecting (undefinedToo : Bool)
deriving DecidableEq, Repr, Inhabited

/-- The branches of a conditional. -/
inductive BranchKind where
  /-- The branch of a condition that holds. -/
  | holds
  /-- The other branch. -/
  | otherwise
  /-- A case of a switch. -/
  | case
deriving DecidableEq, Repr

/-- A branch that is being expanded. -/
structure Branch where
  /-- The conditional. -/
  token : Token
  /-- Which of its branches it is. -/
  kind : BranchKind

/-- The prefixes that wait for an assignment or a definition. -/
structure Prefixes where
  everywhere : Bool := false
  long : Bool := false
  shielded : Bool := false
deriving DecidableEq, Repr, Inhabited

/-- What is subject to grouping. The groups and their settings are listed innermost first. -/
structure Scopes where
  /-- The open groups. -/
  groups : List Group := []
  /-- The commands bound to references. -/
  bindings : Bindings := {}
  /-- The values of variables. -/
  store : Store := {}
  /-- The settings outside all groups. -/
  outerSettings : Settings := {}
  /-- The settings of the open groups. -/
  settings : List Settings := []
deriving Inhabited

namespace Scopes

/-- The settings in effect. -/
def currentSettings (s : Scopes) : Settings := s.settings.head?.getD s.outerSettings

/-- Changes the settings in effect. -/
def mapSettings (s : Scopes) (f : Settings → Settings) : Scopes :=
  match s.settings with
  | [] => { s with outerSettings := f s.outerSettings }
  | current :: outer => { s with settings := f current :: outer }

/-- The settings at the start of a group. -/
def settingsFor (s : Scopes) (kind : GroupKind) : Settings :=
  match kind with
  | .math true => { s.currentSettings with mode := .displayMath }
  | .math false => { s.currentSettings with mode := .inlineMath }
  | _ => s.currentSettings

/-- Opens a group. -/
def openGroup (s : Scopes) (g : Group) : Scopes where
  groups := g :: s.groups
  bindings := s.bindings.beginGroup
  store := s.store.beginGroup
  outerSettings := s.outerSettings
  settings := s.settingsFor g.kind :: s.settings

/-- Closes the innermost group. -/
def closeGroup (s : Scopes) : Scopes where
  groups := s.groups.tail
  bindings := s.bindings.endGroup
  store := s.store.endGroup
  outerSettings := s.outerSettings
  settings := s.settings.tail

/-- A change of what is subject to grouping. -/
inductive Change where
  /-- A group is opened. -/
  | opened (g : Group)
  /-- The innermost group is closed. -/
  | closed (g : Group)
  /-- A reference is bound to a command. -/
  | bound (scope : Scope) (ref : CommandRef) (command : Command)
  /-- A variable is written. -/
  | written (scope : Scope) (w : Store.Write)
  /-- Other settings take effect. -/
  | restyled (settings : Settings)
  /-- Characters get the categories of verbatim text. -/
  | verbatim
  /-- Characters get back the categories that they had before. -/
  | restored (codes : ScopedMap Nat CatCode)

/-- The category of a character in verbatim text: nothing but letters has a meaning there. -/
def verbatimCode : CatCode → CatCode
  | .letter => .letter
  | _ => .other

/-- The store with the categories of verbatim text. -/
@[irreducible] def verbatimStore (s : Store) : Store :=
  (List.range 128).foldl (fun s c => s.setCatCode .inner c (verbatimCode (s.catCode c))) s

/-- Makes a change. -/
def apply (s : Scopes) : Change → Scopes
  | .opened g => s.openGroup g
  | .closed _ => s.closeGroup
  | .bound scope ref command => { s with bindings := s.bindings.insert scope ref command }
  | .written scope w => { s with store := s.store.write scope w }
  | .restyled settings => s.mapSettings fun _ => settings
  | .verbatim => { s with store := verbatimStore s.store }
  | .restored codes => { s with store.catCodes := codes }

end Scopes

/-- What has been given out. -/
structure Output where
  /-- The events, latest first. -/
  events : List Event := []
  /-- What was written to the terminal. -/
  terminal : String := ""
  /-- What was written to the log. -/
  log : String := ""
  /-- The collected tokens, latest first. -/
  collected : List Token := []
  /-- The number of failures that were counted. -/
  tallied : Nat := 0
deriving Inhabited

/-- A signal that ends the run. -/
structure Cancellation where
  /-- Whether the signal has been given. -/
  raised : Bool := false
  /-- After how many writes it will be given. -/
  afterWrites : Option Nat := none
deriving Repr, Inhabited

/-- The signal after one more write. -/
def Cancellation.countWrite (c : Cancellation) : Cancellation :=
  match c.afterWrites with
  | none => c
  | some n => { raised := c.raised || n ≤ 1, afterWrites := some (n - 1) }

/-- The state of the interpreter. -/
structure Machine where
  /-- What is read. -/
  input : Input := {}
  /-- The files that `\endinput` has left before their end, latest first, each by its number among the
  files that were open, counted from the lowest. The number is 0 where no file was open. -/
  leftFiles : List Nat := []
  /-- Where tokens come from. -/
  atlas : Atlas := {}
  /-- What is subject to grouping. -/
  scopes : Scopes := {}
  /-- The changes of what is subject to grouping in this parse, latest first. -/
  history : List Scopes.Change := []
  /-- What has been given out. -/
  output : Output := {}
  /-- The number of expansions in this parse. -/
  expansions : Nat := 0
  /-- The nesting of expansion primitives and regions. -/
  expansionDepth : Nat := 0
  /-- The nesting of full expansions. -/
  fullExpansions : Nat := 0
  /-- The branches that are being expanded, innermost first. -/
  branches : List Branch := []
  /-- The prefixes that wait. -/
  prefixes : Prefixes := {}
  /-- What happens to characters. -/
  handlers : Handlers := .dropping
  /-- The signal that ends the run. -/
  cancellation : Cancellation := {}
  /-- Limits and policies. -/
  config : Config := {}
  /-- What the kind of interpreter determines. -/
  policy : Policy := {}
  /-- The commands bound from the start. -/
  builtIns : List BuiltIn := []
  /-- The files. -/
  files : FileSystem := fun path => .error (path.text ++ " not found")
  /-- The directory from which relative paths lead. -/
  workingDirectory : Option Path := none
  /-- Whether reports are styled. -/
  styling : Text.Styling := .plain
deriving Inhabited

/-- Why a run stops before its end. -/
inductive Halt where
  /-- A failure. -/
  | failed (d : Diagnostic)
  /-- The negative of the least word was asked for. -/
  | overflow
  /-- A part of a source was asked for that ends before it begins. -/
  | reversedSlice
  /-- The steps allowed for the run are used up. -/
  | outOfSteps

/-- An action on the machine. When it stops, the machine keeps what was done so far. -/
abbrev Run := ExceptT Halt (StateM Machine)

namespace Machine

/-- The category of a character. -/
def codeOf (m : Machine) (c : Char) : CatCode := m.scopes.store.catCode c.toNat

/-- The command that a reference stands for. -/
def lookup (m : Machine) (ref : CommandRef) : Command := m.scopes.bindings.lookup ref

/-- Leaves the topmost file before its end. -/
def leaveFile (m : Machine) : Machine :=
  { m with
    input := ⟨Input.endTopFile m.input.sources⟩
    leftFiles := m.input.fileCount :: m.leftFiles }

/-- Changes what is subject to grouping. -/
def change (m : Machine) (c : Scopes.Change) : Machine :=
  { m with scopes := m.scopes.apply c, history := c :: m.history }

/-- Gives out an event. -/
def emit (m : Machine) (e : Event) : Machine :=
  { m with
    output.events := e :: m.output.events
    cancellation :=
      match e with
      | .write _ _ => m.cancellation.countWrite
      | _ => m.cancellation }

/-- How many expansions are still allowed, with the one that exceeds the limit. -/
def expansionsLeft (m : Machine) : Nat := m.config.maxExpansions + 1 - m.expansions

/-- A machine whose vocabulary is the given one. -/
def ofBuiltIns (builtIns : List BuiltIn) : Machine where
  builtIns
  scopes :=
    { bindings :=
        ScopedMap.ofList (builtIns.map fun b => (CommandRef.controlSequence b.name, b.command)) }

/-- The standard machine: the whole vocabulary, and `~` for a space that does not break. -/
def standard : Machine :=
  let m := ofBuiltIns vocabulary
  let tie : Command := .character .other '\u00a0'
  { m with
    scopes.bindings := m.scopes.bindings.insertGlobal (.active '~') tie }

/-- A machine without any commands. -/
def bare : Machine := { ofBuiltIns [] with policy := { honoursNoExpand := false } }

end Machine

namespace Run

variable {α : Type}

/-- Stops the run with a fault, placed by what is known now. -/
def fail (f : Fault) : Run α := do
  let m ← get
  throw (.failed (.ofFault m.atlas f))

/-- Runs an action on behalf of a command, which is added to a failure that passes through it. -/
def during (operation : Operation) (t : Token) (action : Run α) : Run α := do
  try action
  catch
    | .failed d => do
      let m ← get
      throw (.failed (d.within m.atlas operation t))
    | halt => throw halt

/-- Gives out an event. -/
def emit (e : Event) : Run Unit := modify (·.emit e)

/-- Writes a text to the log. -/
def writeLog (s : String) : Run Unit :=
  modify fun m => { m with output.log := m.output.log ++ s }

/-- Writes a text to the terminal. -/
def writeTerminal (s : String) : Run Unit :=
  modify fun m => { m with output.terminal := m.output.terminal ++ s }

/-- Reports a fault from which the interpreter can recover. -/
def recoverable (f : Fault) : Run Unit := do
  let m ← get
  match m.policy.recovery with
  | .report =>
    let d := Diagnostic.ofFault m.atlas f
    emit (.warning d)
    writeLog (d.render m.styling ++ "\n")
  | .refuse => fail f
  | .tally => modify fun m => { m with output.tallied := m.output.tallied + 1 }

/-- The command that a reference stands for. -/
def lookup (ref : CommandRef) : Run Command := do
  return (← get).lookup ref

/-- Changes what is subject to grouping. -/
def change (c : Scopes.Change) : Run Unit := modify (·.change c)

/-- Binds a reference to a command. -/
def bindRef (scope : Scope) (ref : CommandRef) (command : Command) : Run Unit :=
  change (.bound scope ref command)

/-- Binds a reference to the meaning of a token. -/
def bindToken (scope : Scope) (ref : CommandRef) (t : Token) : Run Unit := do
  bindRef scope ref ((← get).scopes.bindings.meaningOf t.value)

/-- Writes a variable. -/
def write (scope : Scope) (w : Store.Write) : Run Unit := change (.written scope w)

/-- Changes the settings in effect. -/
def mapSettings (f : Settings → Settings) : Run Unit := do
  change (.restyled (f (← get).scopes.currentSettings))

/-- Puts a token in front of the input. -/
def pushBack (t : Token) : Run Unit := modify fun m => { m with input := m.input.push t }

/-- Puts tokens in front of the input. -/
def pushTokens (ts : List Token) : Run Unit := modify fun m => { m with input := m.input.pushAll ts }

/-- Opens a group. -/
def beginGroup (kind : GroupKind) (opener : Token) : Run Unit := do
  let g : Group := { kind, opener }
  change (.opened g)
  emit (.beginGroup g)

/-- Closes the innermost group, which must be of the given kind. -/
def endGroup (kind : GroupKind) (closer : Token) : Run Unit := do
  match (← get).scopes.groups with
  | [] => fail (.noGroupToEnd closer)
  | g :: _ =>
    if g.kind ≠ kind then fail (.wrongGroupEnd closer g.kind kind)
    else
      let g : Group := { g with closer := some closer }
      change (.closed g)
      emit (.endGroup g)

/-- The scope of the next assignment. The waiting prefix is used up. -/
def takeScope : Run Scope := do
  let m ← get
  modify fun m => { m with prefixes.everywhere := false }
  return if m.prefixes.everywhere then .everywhere else .inner

end Run

end Gullet
