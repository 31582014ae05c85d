import Gullet.Diagnostic.Saved
import Gullet.PlainText
import Gullet.Session

/-!
# The command line

There are two commands: `run` reads a file and gives its text, and `doc` describes the vocabulary.
Arguments are read from left to right. The value of an option may stand in the next argument, so an
option waits for its value, and what has been collected for an option or operand is checked when the
next one begins.
-/

namespace Gullet.CommandLine

/-- What makes a list of arguments unusable. -/
inductive UsageError where
  | helpRequested
  | versionRequested
  /-- There are no arguments at all. -/
  | nothingGiven
  | unknownCommand
  | unknownArgument
  /-- A required argument is absent. -/
  | missingArgument
  /-- An option that takes none has a value. -/
  | unexpectedValue
  /-- An option that takes a value has none. -/
  | emptyValue
  /-- A value that is no number where one is required. -/
  | malformedValue
  /-- An option that was given twice. -/
  | repeatedOption
deriving DecidableEq, Repr

/-- The name of an error. -/
def UsageError.name : UsageError → String
  | helpRequested => "DisplayHelp"
  | versionRequested => "DisplayVersion"
  | nothingGiven => "DisplayHelpOnMissingArgumentOrSubcommand"
  | unknownCommand => "InvalidSubcommand"
  | unknownArgument => "UnknownArgument"
  | missingArgument => "MissingRequiredArgument"
  | unexpectedValue => "TooManyValues"
  | emptyValue => "InvalidValue"
  | malformedValue => "ValueValidation"
  | repeatedOption => "ArgumentConflict"

/-- An error in words. -/
def UsageError.text : UsageError → String
  | helpRequested | nothingGiven =>
    "usage: gullet run [--strict] [--timeout-ms N] [--max-expansions N] [--json-errors] FILE\n" ++
    "       gullet doc [NAME]"
  | versionRequested => "gullet 0.1.0"
  | unknownCommand => "error: there is no such command"
  | unknownArgument => "error: there is no such option or no room for this argument"
  | missingArgument => "error: a file is required"
  | unexpectedValue => "error: the option takes no value"
  | emptyValue => "error: a value is required"
  | malformedValue => "error: the value must be a number"
  | repeatedOption => "error: the option can be given only once"

/-- The options of the command `run`. -/
structure RunOptions where
  /-- The file. -/
  file : Option String := none
  /-- Whether undefined commands are fatal. -/
  strict : Bool := false
  /-- After how many milliseconds the run is cancelled. -/
  timeout : Option Nat := none
  /-- The greatest number of expansions. -/
  maxExpansions : Option Nat := none
  /-- Whether reports are given as JSON. -/
  json : Bool := false
deriving Repr

/-- What the arguments ask for. -/
inductive Invocation where
  | doc (name : Option String)
  | run (file : String) (options : RunOptions)

/-- An option or operand that takes a value. -/
inductive Slot where
  | operand
  | timeout
  | maxExpansions
deriving DecidableEq, Repr

/-- A natural number that fits a machine word. A plus sign may stand in front. -/
def count? (s : String) : Option Nat :=
  let chars := s.toList
  let digits := if chars.head? = some '+' then chars.tail else chars
  if digits.isEmpty || !digits.all Char.isDigit then none
  else
    let n := digits.foldl (fun n c => n * 10 + (c.toNat - '0'.toNat)) 0
    if n < countBound then some n else none

/-- The arguments read so far. -/
structure Parsing where
  /-- What has been checked. -/
  options : RunOptions := {}
  /-- What waits to be checked: an option or operand, with its value if that has been read. -/
  waiting : Option (Slot × Option String) := none
  /-- Whether an operand has been read. -/
  operandRead : Bool := false
  /-- Whether everything that follows is an operand. -/
  operandsOnly : Bool := false

/-- The options with the value of a slot. A file name must not be empty. -/
def assign (fileRequired : Bool) (o : RunOptions) (slot : Slot) (value : Option String) :
    Except UsageError RunOptions :=
  match slot, value with
  | _, none => throw .emptyValue
  | .operand, some s =>
    if fileRequired && s.isEmpty then throw .emptyValue else return { o with file := some s }
  | .timeout, some s =>
    if o.timeout.isSome then throw .repeatedOption
    else
      match count? s with
      | some n => return { o with timeout := some n }
      | none => throw .malformedValue
  | .maxExpansions, some s =>
    if o.maxExpansions.isSome then throw .repeatedOption
    else
      match count? s with
      | some n => return { o with maxExpansions := some n }
      | none => throw .malformedValue

namespace Parsing

/-- Checks what waits. -/
def settle (fileRequired : Bool) (p : Parsing) : Except UsageError Parsing :=
  match p.waiting with
  | none => return p
  | some (slot, value) =>
    return { p with options := ← assign fileRequired p.options slot value, waiting := none }

/-- Sets a flag, which must not be set already. -/
def setFlag (p : Parsing) (isSet : Bool) (options : RunOptions) : Except UsageError Parsing := do
  let p ← p.settle true
  if isSet then throw .repeatedOption else return { p with options }

/-- The name and the attached value of a long option. -/
def splitLong (chars : List Char) : String × Option String :=
  let name := String.ofList (chars.takeWhile (· ≠ '='))
  match chars.dropWhile (· ≠ '=') with
  | [] => (name, none)
  | _ :: value => (name, some (String.ofList value))

/-- Reads a long option of `run`. -/
def longOption (p : Parsing) (name : String) (value : Option String) : Except UsageError Parsing := do
  let slot? : Option Slot :=
    match name with
    | "timeout-ms" => some .timeout
    | "max-expansions" => some .maxExpansions
    | _ => none
  match slot? with
  | some slot =>
    let p ← p.settle true
    let p := { p with waiting := some (slot, value) }
    if value.isSome then p.settle true else return p
  | none =>
    match name, value with
    | "strict", none => do
      let p ← p.settle true
      p.setFlag p.options.strict { p.options with strict := true }
    | "json-errors", none => do
      let p ← p.settle true
      p.setFlag p.options.json { p.options with json := true }
    | "strict", some _ | "json-errors", some _ => throw .unexpectedValue
    | _, _ => throw .unknownArgument

/-- Reads an operand. -/
def operand (fileRequired : Bool) (p : Parsing) (s : String) : Except UsageError Parsing := do
  if p.operandRead then throw .unknownArgument
  else
    let p ← p.settle fileRequired
    return { p with waiting := some (.operand, some s), operandRead := true }

/-- Reads an argument of a command. `isRun` says whether the command is `run`, which has options. -/
def argument (isRun : Bool) (p : Parsing) (s : String) : Except UsageError Parsing := do
  let plain : Except UsageError Parsing :=
    match p.waiting with
    | some (slot, none) =>
      if p.operandsOnly then operand isRun p s
      else return { p with waiting := some (slot, some s) }
    | _ => operand isRun p s
  if p.operandsOnly then plain
  else
    match s.toList with
    | ['-', '-'] => return { p with operandsOnly := true }
    | '-' :: '-' :: chars =>
      let (name, value) := splitLong chars
      match name, value with
      | "help", none =>
        _ ← p.settle isRun
        throw .helpRequested
      | "help", some _ => throw .unexpectedValue
      | _, _ => if isRun then longOption p name value else throw .unknownArgument
    | '-' :: 'h' :: _ =>
      _ ← p.settle isRun
      throw .helpRequested
    | '-' :: _ :: _ => throw .unknownArgument
    | _ => plain

/-- Reads all arguments of a command. -/
def all (isRun : Bool) (args : List String) : Except UsageError Parsing := do
  (← args.foldlM (argument isRun) {}).settle isRun

end Parsing

/-- The names of the commands. -/
def commandNames : List String := ["doc", "run", "help"]

/-- What the command `help` shows: an error unless it names a command. -/
def helpError : List String → UsageError
  | [] => .helpRequested
  | [name] => if commandNames.contains name then .helpRequested else .unknownCommand
  | _ => .unknownCommand

/-- What remains if no command is named, `--` having been read or not. -/
def withoutCommand (afterDashes : Bool) : List String → UsageError
  | [] => .nothingGiven
  | name :: _ =>
    if afterDashes && commandNames.contains name then .unknownArgument else .unknownCommand

/-- Reads the arguments. -/
def parse : List String → Except UsageError Invocation
  | "run" :: args => do
    let p ← Parsing.all true args
    match p.options.file with
    | some file => return .run file p.options
    | none => throw .missingArgument
  | "doc" :: args => do
    return .doc (← Parsing.all false args).options.file
  | "help" :: args => throw (helpError args)
  | "--" :: args => throw (withoutCommand true args)
  | args@(arg :: _) =>
    match arg.toList with
    | ['-'] => throw .unknownCommand
    | '-' :: '-' :: chars =>
      let (name, value) := Parsing.splitLong chars
      match name, value with
      | "help", none => throw .helpRequested
      | "version", none => throw .versionRequested
      | "help", some _ | "version", some _ => throw .unexpectedValue
      | _, _ => throw .unknownArgument
    | '-' :: 'h' :: _ => throw .helpRequested
    | '-' :: 'V' :: _ => throw .versionRequested
    | '-' :: _ => throw .unknownArgument
    | _ => throw (withoutCommand false args)
  | [] => throw .nothingGiven

/-- Why a command fails. -/
inductive Failure where
  /-- The name looked up is not in the vocabulary. -/
  | unknownName (name : String)
  /-- The document is faulty. -/
  | faulty (d : Diagnostic)
  /-- The run was stopped. -/
  | stopped

/-- What a command gives. -/
structure Outcome where
  /-- The text for the standard output. -/
  output : String := ""
  /-- The failures from which the interpreter recovered. -/
  warnings : List Diagnostic := []
  /-- What was written to the terminal by the document. -/
  terminal : String := ""
  /-- The failure that ended the command. -/
  failure : Option Failure := none

/-- A report for the user or for a program. -/
def reportText (styling : Text.Styling) (json : Bool) (d : Diagnostic) : String :=
  if json then (d.saved styling).text else d.render styling

/-- A failure in words. -/
def Failure.text (styling : Text.Styling) (json : Bool) : Failure → String
  | unknownName name => "Unknown command \\" ++ name
  | faulty d => reportText styling json d
  | stopped => "the run was stopped"

/-- The machine that runs a document. -/
def machineFor (styling : Text.Styling) (files : FileSystem) (directory : Option Path)
    (o : RunOptions) : Machine :=
  let m := Machine.standard
  { m with
    files
    styling
    workingDirectory := directory
    config.strictUndefined := o.strict
    config.maxExpansions := o.maxExpansions.getD m.config.maxExpansions }

/-- The warnings among events. -/
def warningsOf (events : List Event) : List Diagnostic :=
  events.filterMap fun
    | .warning d => some d
    | _ => none

/-- The command `run`. -/
def run (styling : Text.Styling) (files : FileSystem) (directory : Option Path) (file : String)
    (o : RunOptions) : Outcome :=
  let path := Path.withDefaultExtension ⟨file⟩ "tex"
  let (result, m) :=
    Session.parseFile .writing path (machineFor styling files directory o)
  let events := m.output.events.reverse
  let text := PlainText.ofEvents events
  { output := if text.isEmpty then "" else text ++ "\n"
    warnings := warningsOf events
    terminal := m.output.terminal
    failure :=
      match result with
      | .ok () => none
      | .error (.failed d) => some (.faulty d)
      | .error .overflow | .error .reversedSlice | .error .outOfSteps => some .stopped }

/-- A line about a command of the vocabulary. -/
def docLine (styling : Text.Styling) (b : BuiltIn) : String :=
  "\\" ++ styling.bold b.name ++ "  " ++ b.doc ++ "\n"

/-- The first letter of a name, in lower case. -/
def initial (b : BuiltIn) : Option Char := b.name.toList.head?.map Char.toLower

/-- Lines about commands, with a blank line where the initial changes. -/
def docLines (styling : Text.Styling) : List BuiltIn → String
  | [] => ""
  | [b] => docLine styling b
  | b :: next :: rest =>
    docLine styling b ++ (if initial b = initial next then "" else "\n") ++
      docLines styling (next :: rest)

/-- The commands that are shown to the user, in alphabetical order. -/
def shownVocabulary : List BuiltIn :=
  (vocabulary.filter fun b => b.name.toList.head? ≠ some '@').mergeSort fun a b => a.name ≤ b.name

/-- The command `doc`. -/
def doc (styling : Text.Styling) : Option String → Outcome
  | none => { output := docLines styling shownVocabulary }
  | some name =>
    let name := String.ofList (name.toList.dropWhile (· = '\\'))
    match vocabulary.find? fun b => b.name = name with
    | some b => { output := docLine styling b }
    | none => { failure := some (.unknownName name) }

/-- Runs a command. -/
def execute (styling : Text.Styling) (files : FileSystem) (directory : Option Path) :
    Invocation → Outcome
  | .doc name => doc styling name
  | .run file options => run styling files directory file options

end Gullet.CommandLine
