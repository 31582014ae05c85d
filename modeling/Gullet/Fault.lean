import Gullet.Fault.Expectation
import Gullet.Object
import Gullet.Primitive
import Gullet.Text.Path
import Gullet.Text.Quoted
import Gullet.Text.Styled

/-!
# Faults

A fault is the cause of a failure, with what is needed to describe it. All wording is in
`Fault.report`: the kind of the fault, where in the input it is, its title, and notes that help to mend
it.
-/

namespace Gullet

/-- The kinds of faults. -/
inductive FaultKind where
  /-- The input ended while something was still open. -/
  | endOfInput
  /-- A token that is not allowed where it stands. -/
  | syntactic
  /-- A reference that stands for nothing. -/
  | undefinedCommand
  /-- A value of the wrong type. -/
  | typeMismatch
  /-- A group that was closed without being open, or in the wrong way. -/
  | unbalancedGroup
  /-- A limit of the interpreter was exceeded. -/
  | nonTermination
  /-- The run was cancelled. -/
  | cancelled
  /-- Something outside the input failed. -/
  | external
deriving DecidableEq, Repr

/-- The name of a kind of faults. -/
def FaultKind.name : FaultKind → String
  | endOfInput => "EndOfInput"
  | syntactic => "Syntax"
  | undefinedCommand => "UndefinedCommand"
  | typeMismatch => "TypeMismatch"
  | unbalancedGroup => "UnbalancedGroup"
  | nonTermination => "NonTermination"
  | cancelled => "Cancelled"
  | external => "Io"

/-- Where in the input a fault is. -/
inductive Location where
  /-- At a token. -/
  | token (t : Token)
  /-- At the end of the input. -/
  | endOfInput
  /-- Nowhere in particular. -/
  | unlocated
deriving Repr

/-- The limits of the interpreter. -/
inductive Limit where
  | expansionCount
  | expansionDepth
  | inputDepth
deriving DecidableEq, Repr

/-- A limit in words. -/
def Limit.words : Limit → String
  | expansionCount => "expansion count"
  | expansionDepth => "expansion depth"
  | inputDepth => "input depth"

/-- What was being skipped when the input ended inside a conditional. -/
inductive SkippedPart where
  | trueBranch
  | cases
  | remainingCases
  | falseBranch
deriving DecidableEq, Repr

/-- The skipped part in words. -/
def SkippedPart.words : SkippedPart → String
  | trueBranch => "skipping the true branch of a conditional"
  | cases => "skipping the cases of \\ifcase"
  | remainingCases => "skipping the remaining cases of \\ifcase"
  | falseBranch => "skipping the false branch of a conditional"

/-- The commands that divide conditionals. -/
inductive Divider where
  | nextCase
  | elseBranch
  | endIf
deriving DecidableEq, Repr

/-- The cause of a failure. -/
inductive Fault where
  /-- A character of category invalid. -/
  | invalidCharacter (c : Char) (key : SourceKey)
  /-- The source ends after an escape character. -/
  | emptyControlSequence (key : SourceKey)
  /-- The input ended during an activity. -/
  | inputEnded (during : Activity)
  /-- The input ended before the text was balanced. -/
  | unbalancedText (opener : Token)
  /-- The input lacks an element of the grammar. -/
  | expected (what : Expectation) (got : Option Token)
  /-- A number is not among the first `bound` natural numbers. -/
  | outOfBounds (first : Token) (bound : Nat) (got : Int)
  /-- A token list variable stands where a number should. -/
  | tokenListAsNumber (t : Token)
  /-- A displayed formula is not ended by two math shifts. -/
  | displayMathEnd (t : Token)
  /-- The input ended inside a group. -/
  | groupLeftOpen (group : Group)
  /-- No group is open. -/
  | noGroupToEnd (t : Token)
  /-- The innermost group is of another kind. -/
  | wrongGroupEnd (t : Token) (opened closed : GroupKind)
  /-- A reference stands for nothing; a similar name may exist. -/
  | undefinedCommand (t : Token) (suggestion : Option String)
  /-- A limit was exceeded. -/
  | limitExceeded (t : Option Token) (limit : Limit) (bound : Nat)
  /-- The run was cancelled. -/
  | cancelled
  /-- A document could not be read. -/
  | unreadableDocument (path : Path) (reason : String)
  /-- A file named in the input could not be read. -/
  | unreadableInput (t : Token) (path : Path) (reason : String)
  /-- No file is named. -/
  | missingFileName (t : Token)
  /-- The interpreter does not support `\noexpand`. -/
  | noExpandUnsupported
  /-- The input ended after `\noexpand`. -/
  | noExpandAtEnd (t : Token)
  /-- The input ended before the first token after `\expandafter`. -/
  | expandAfterFirst (t : Token)
  /-- The input ended before the second token after `\expandafter`. -/
  | expandAfterSecond (t : Token)
  /-- An argument of a macro contains a paragraph break. -/
  | paragraphInArgument (par : Token)
  /-- What follows a macro does not match its definition. -/
  | macroMismatch (t : Token) (name : String)
  /-- An optional argument holds a brace that closes nothing. -/
  | endGroupInOptional (t : Token)
  /-- The input ended inside a conditional. -/
  | conditionalLeftOpen (t : Token) (part : SkippedPart)
  /-- A divider stands where none is allowed. -/
  | unexpectedDivider (t : Token) (divider : Divider)
  /-- The name of a switch does not start with `if`. -/
  | invalidSwitchName (t : Token) (name : String)
  /-- A parameter character in ordinary text. -/
  | parameterCharacter (t : Token) (c : Char)
  /-- The input ended before the argument of a script. -/
  | missingScript (t : Token)
  /-- Verbatim text has no delimiter. -/
  | verbDelimiter (t : Token)
  /-- Verbatim text goes beyond its line. -/
  | verbLineEnd (t : Token) (delimiter : Char)
  /-- The command `\the` before a character. -/
  | theCharacter (t : Token)
  /-- The command `\the` before a command that is no variable. -/
  | theCommand (t : Token) (name : String)
  /-- A command inside a control sequence name. -/
  | commandInName (t : Token) (name : String)
  /-- The command `\endcsname` without its beginning. -/
  | extraEndCsname (t : Token)
  /-- A prefix before a character. -/
  | prefixedCharacter (t : Token)
  /-- A prefix before a command that does not take it. -/
  | prefixRefused (t : Token) (name modifier : String)
  /-- An environment without a name. -/
  | missingEnvironmentName (t : Token)
  /-- A new environment has the name of an existing one. -/
  | environmentExists (t : Token) (name : String)
  /-- An environment to be redefined does not exist. -/
  | environmentMissing (t : Token) (name : String)
  /-- An environment that is begun does not exist. -/
  | environmentUndefined (t : Token) (name : String)
  /-- An environment is ended by the name of another. -/
  | environmentMismatch (t : Token) (opened closed : String)
  /-- A new command has the name of an existing one. -/
  | commandExists (t : Token) (name : String)
  /-- A command to be redefined does not exist. -/
  | commandMissing (t : Token) (name : String)
  /-- The number of parameters is not between zero and nine. -/
  | invalidParameterCount (t : Token)
  /-- A brace that closes nothing in a parameter text. -/
  | endGroupInParameterText (t : Token)
  /-- A control sequence after a parameter token. -/
  | controlSequenceAfterParameter (t : Token)
  /-- A character after a parameter token that is no digit. -/
  | characterAfterParameter (t : Token)
  /-- Parameters that are not numbered in order. -/
  | parameterOutOfOrder (t : Token) (got already : Nat)
  /-- A parameter token at the end of a replacement text. -/
  | parameterAtEnd (t : Token)
  /-- A parameter that the macro does not have. -/
  | noSuchParameter (t : Token) (count : Nat)
  /-- The result of an operation is too large. -/
  | arithmeticOverflow (op : Arithmetic) (left right : String)
  /-- A division by zero. -/
  | divisionByZero (numerator : String)
  /-- Arithmetic on a variable that holds no number. -/
  | arithmeticOn (t : Token) (v : Variable)

/-- The description of a fault. -/
structure Report where
  /-- The kind of the fault. -/
  kind : FaultKind := .syntactic
  /-- Where it is. -/
  location : Location
  /-- What happened. -/
  title : String
  /-- What helps to mend it. -/
  notes : List String := []
  /-- What is written under the token, if not the description of the token. -/
  caption? : Option String := none

/-- What is written under the place of a fault of which nothing special is known. -/
def Location.caption : Location → String
  | token t =>
    match t.value.charAndCode? with
    | some (c, code) =>
      "character token with value " ++ c.toString ++ " and category code " ++ code.text
    | none => "control sequence"
  | endOfInput => "input ended here"
  | unlocated => "error occurred while running this command"

/-- What is written under the place of the fault. -/
def Report.caption (r : Report) : String := r.caption?.getD r.location.caption

/-- What may follow a parameter token. -/
def parameterNote : String :=
  "a parameter token must be followed by a single digit number, another parameter token, " ++
  "or a begin group token \x7b"

/-- The operation in words. -/
def Arithmetic.words : Arithmetic → String
  | advance => "addition"
  | multiply => "multiplication"
  | divide => "division"

/-- The parameter numbers of a macro with the given number of parameters, in words. -/
def expectedParameter : Nat → String
  | 0 => "no parameter number, because this macro has 0 parameters"
  | 1 => "the number 1, because this macro has only 1 parameter"
  | n =>
    "a number between 1 and " ++ toString n ++ " inclusive, because this macro has " ++
      toString n ++ " parameters"

/-- The place and, depending on it, the kind of a fault at a token or at the end of the input. -/
def atTokenOrEnd : Option Token → FaultKind × Location
  | none => (.endOfInput, .endOfInput)
  | some t => (.syntactic, .token t)

namespace Fault

open FaultKind in
/-- The description of a fault. -/
def report (styling : Text.Styling) : Fault → Report
  | invalidCharacter c key =>
    { location := .token (.char .other c key)
      title := "invalid character " ++ Text.quoted c
      notes :=
        ["this character has category code 15 (invalid) and cannot appear in the input"] }
  | emptyControlSequence key =>
    { kind := endOfInput
      location := .token (.char .other '\\' key)
      title := "the input ended in the middle of a control sequence name" }
  | inputEnded during =>
    { kind := endOfInput
      location := .endOfInput
      title := "unexpected end of input while " ++ during.words
      notes := during.notes }
  | unbalancedText opener =>
    let closer :=
      if opener.value.isBeginGroup then "a matching end group token like \x7d"
      else "a matching end group token"
    { kind := endOfInput
      location := .endOfInput
      title := "unexpected end of input while parsing balanced text"
      notes := ["the text must be closed with " ++ closer] }
  | expected what got =>
    let (kind, location) := atTokenOrEnd got
    { kind, location
      title :=
        "expected " ++ what.wanted ++ ", instead " ++ what.found?.getD (foundInstead got)
      notes := what.guidance?.toList
      caption? := what.caption? }
  | outOfBounds first bound got =>
    { location := .token first
      title :=
        "expected an integer in the range [0, " ++ toString bound ++ "), got " ++ toString got }
  | tokenListAsNumber t =>
    { kind := typeMismatch
      location := .token t
      title := "a token list variable cannot be used as a number"
      notes := [numberGuidance] }
  | displayMathEnd t =>
    { kind := unbalancedGroup
      location := .token t
      title := "display math must end with $$" }
  | groupLeftOpen group =>
    { kind := endOfInput
      location := .token group.opener
      title := "the input ended before this group was closed"
      notes := ["the group must be closed with " ++ group.kind.closer] }
  | noGroupToEnd t =>
    { kind := unbalancedGroup
      location := .token t
      title := "there is no group to end" }
  | wrongGroupEnd t opened closed =>
    { kind := unbalancedGroup
      location := .token t
      title := "this ends a group that must be closed with " ++ opened.closer
      notes := ["the token closes groups opened with " ++ closed.closer] }
  | undefinedCommand t suggestion =>
    { kind := .undefinedCommand
      location := .token t
      title :=
        match t.value with
        | .command (.active _) => "undefined active character"
        | _ => "undefined control sequence"
      notes := suggestion.toList.map fun s => "did you mean \\" ++ styling.bold s ++ "?" }
  | limitExceeded t limit bound =>
    { kind := nonTermination
      location :=
        match t with
        | none => .unlocated
        | some t => .token t
      title :=
        "expansion did not terminate: the " ++ limit.words ++ " limit of " ++ toString bound ++
          " was exceeded"
      notes :=
        ["this usually means a macro expands to itself, directly or indirectly",
         "the limit can be raised in the VM's configuration"] }
  | cancelled =>
    { kind := .cancelled
      location := .unlocated
      title := "parsing cancelled"
      caption? := some "cancellation was observed here" }
  | unreadableDocument path reason =>
    { kind := external
      location := .unlocated
      title := "could not read the file " ++ path.text
      notes := [reason] }
  | unreadableInput t path reason =>
    { kind := external
      location := .token t
      title := "could not read the file " ++ path.text
      notes := [reason] }
  | missingFileName t =>
    { location := .token t
      title := "missing file name after \\input"
      notes :=
        ["the file name follows \\input, like \\input\x7bchapter\x7d or \\input chapter"] }
  | noExpandUnsupported =>
    { kind := external
      location := .unlocated
      title := "\\noexpand ran without the noexpand hook"
      notes := ["the state's expansion_override_hook must call noexpand_hook"] }
  | noExpandAtEnd t =>
    { kind := endOfInput
      location := .token t
      title := "unexpected end of input after \\noexpand"
      notes := ["\\noexpand must be followed by a token"] }
  | expandAfterFirst t =>
    { kind := endOfInput
      location := .token t
      title := "unexpected end of input while reading the first token after \\expandafter"
      notes := ["\\expandafter must be followed by two tokens"] }
  | expandAfterSecond t =>
    { kind := endOfInput
      location := .token t
      title := "unexpected end of input while reading the second token after \\expandafter"
      notes := ["\\expandafter must be followed by two tokens"] }
  | paragraphInArgument par =>
    { location := .token par
      title := "paragraph ended before the macro's arguments were complete"
      notes := ["only macros defined with \\long may take arguments containing \\par"] }
  | macroMismatch t name =>
    { location := .token t
      title := "use of " ++ name ++ " doesn't match its definition"
      notes := ["the tokens after the macro must match the prefix in its definition"] }
  | endGroupInOptional t =>
    { kind := unbalancedGroup
      location := .token t
      title := "unexpected end group token inside an optional argument" }
  | conditionalLeftOpen t part =>
    { kind := endOfInput
      location := .token t
      title := "unexpected end of input while " ++ part.words
      notes := ["each conditional must be terminated by a \\fi command"] }
  | unexpectedDivider t divider =>
    let (name, note) :=
      match divider with
      | .nextCase =>
        ("or", "an \\or command is only valid inside a case branch of \\ifcase")
      | .elseBranch =>
        ("else", "an \\else command is only valid inside the true branch of a conditional")
      | .endIf => ("fi", "a \\fi command is only valid after a conditional")
    { location := .token t
      title := "unexpected \\" ++ name ++ " command"
      notes := [note] }
  | invalidSwitchName t name =>
    { location := .token t
      title := name ++ " is not a valid switch name"
      notes := ["the name of a switch must begin with `if`, like \\iffoo"] }
  | parameterCharacter t c =>
    { location := .token t
      title :=
        "the macro parameter character " ++ c.toString ++
          " cannot be used outside a macro definition"
      notes := ["to write the character itself, use \\" ++ c.toString] }
  | missingScript t =>
    { kind := endOfInput
      location := .token t
      title := "the input ended before the script's argument"
      notes :=
        ["a script is followed by a single token or a group, like x^2 or x^\x7b10\x7d"] }
  | verbDelimiter t =>
    { location := .token t
      title := "\\verb must be followed by a delimiter character"
      notes :=
        ["the verbatim text is enclosed in two copies of one character, like \\verb|text|"] }
  | verbLineEnd t delimiter =>
    { kind := endOfInput
      location := .token t
      title := "\\verb ended by the end of the line"
      notes :=
        ["the verbatim text must end with " ++ delimiter.toString ++ " on the same line"] }
  | theCharacter t =>
    { kind := typeMismatch
      location := .token t
      title := "\\the cannot be applied to a character"
      notes := ["\\the applies to variables, like \\count 0 or \\catcode `\\a"] }
  | theCommand t name =>
    { kind := typeMismatch
      location := .token t
      title := "\\the cannot be applied to " ++ name
      notes := ["\\the applies to variables, like \\count 0 or \\catcode `\\a"] }
  | commandInName t name =>
    { location := .token t
      title := "unexpected command " ++ name ++ " while building a control sequence name"
      notes := ["only character tokens may appear between \\csname and \\endcsname"] }
  | extraEndCsname t =>
    { location := .token t
      title := "extra \\endcsname"
      notes := ["\\endcsname must be preceded by a matching \\csname"] }
  | prefixedCharacter t =>
    { location := .token t
      title := "a character cannot be prefixed"
      notes := ["prefixes apply to assignments and macro definitions"] }
  | prefixRefused t name modifier =>
    { location := .token t
      title := name ++ " cannot be prefixed by " ++ modifier
      notes :=
        ["\\global applies to assignments and definitions",
         "\\long and \\protected apply only to \\def, \\gdef, \\edef and \\xdef"] }
  | missingEnvironmentName t =>
    { location := .token t
      title := "missing environment name"
      notes :=
        ["the name of an environment is given in braces, like \\begin\x7bitemize\x7d"] }
  | environmentExists t name =>
    { location := .token t
      title := "environment " ++ name ++ " already defined"
      notes :=
        ["use \\renewenvironment to change the definition of an existing environment"] }
  | environmentMissing t name =>
    { kind := .undefinedCommand
      location := .token t
      title := "environment " ++ name ++ " is not defined"
      notes := ["use \\newenvironment to define a new environment"] }
  | environmentUndefined t name =>
    { kind := .undefinedCommand
      location := .token t
      title := "environment " ++ name ++ " is not defined" }
  | environmentMismatch t opened closed =>
    { kind := unbalancedGroup
      location := .token t
      title :=
        "\\begin\x7b" ++ opened ++ "\x7d ended by \\end\x7b" ++ closed ++ "\x7d"
      notes :=
        ["the innermost open environment must be closed with \\end\x7b" ++ opened ++ "\x7d"] }
  | commandExists t name =>
    { location := .token t
      title := "command " ++ name ++ " already defined"
      notes := ["use \\renewcommand to change the definition of an existing command"] }
  | commandMissing t name =>
    { kind := .undefinedCommand
      location := .token t
      title := "command " ++ name ++ " is not defined"
      notes := ["use \\newcommand to define a new command"] }
  | invalidParameterCount t =>
    { location := .token t
      title := "invalid number of parameters"
      notes := ["the number of parameters is a number between 0 and 9, like [2]"] }
  | endGroupInParameterText t =>
    { location := .token t
      title := "unexpected end group token while parsing the parameter text of a macro"
      notes := ["the parameter text of a macro must end with a begin group token \x7b"] }
  | controlSequenceAfterParameter t =>
    { location := .token t
      title := "unexpected control sequence after a parameter token"
      notes := [parameterNote] }
  | characterAfterParameter t =>
    { location := .token t
      title := "unexpected character after a parameter token"
      notes := [parameterNote] }
  | parameterOutOfOrder t got already =>
    { location := .token t
      title := "unexpected parameter number " ++ toString got
      notes :=
        ["this macro has " ++ toString already ++
          " parameter(s) so far, so parameter number #" ++ toString (already + 1) ++
          " was expected"] }
  | parameterAtEnd t =>
    { location := .token t
      title :=
        "a parameter token at the end of the replacement text must be followed by a number"
      notes := ["to include a literal parameter token, write ##"] }
  | noSuchParameter t count =>
    { location := .token t
      title := "unexpected token while reading a parameter number"
      notes := ["expected " ++ expectedParameter count] }
  | arithmeticOverflow op left right =>
    { kind := typeMismatch
      location := .unlocated
      title := "overflow in " ++ op.words
      notes :=
        ["left hand side evaluated to " ++ left, "right hand side evaluated to " ++ right] }
  | divisionByZero numerator =>
    { kind := typeMismatch
      location := .unlocated
      title := "division by zero"
      notes := ["numerator evaluated to " ++ numerator] }
  | arithmeticOn t v =>
    { kind := typeMismatch
      location := .token t
      title := "arithmetic commands cannot be applied to " ++ v.words
      notes := ["only integer and dimension variables support arithmetic"] }

/-- The kind of the fault. -/
def kind (f : Fault) : FaultKind := (f.report .plain).kind

/-- Where the fault is. -/
def location (f : Fault) : Location := (f.report .plain).location

end Fault

end Gullet
