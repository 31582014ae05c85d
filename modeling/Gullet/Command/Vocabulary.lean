import Gullet.Command

/-!
# The vocabulary

The control sequences that are bound when an interpreter starts, with a line about each.
-/

namespace Gullet

/-- A command that is bound from the start. -/
structure BuiltIn where
  /-- The control sequence. -/
  name : String
  /-- What it stands for. -/
  command : Command
  /-- What it does. -/
  doc : String := ""

namespace BuiltIn

/-- An expansion primitive. -/
def expanded (name : String) (p : ExpansionPrimitive) (doc : String) : BuiltIn :=
  ⟨name, .expansion p, doc⟩

/-- An execution primitive. -/
def executed (name : String) (p : ExecutionPrimitive) (doc : String) : BuiltIn :=
  ⟨name, .execution p, doc⟩

/-- A variable. -/
def quantity (name : String) (v : VariableCommand) (doc : String) : BuiltIn :=
  ⟨name, .quantity v, doc⟩

/-- A switch for a font size. -/
def sized (s : Size) (doc : String) : BuiltIn := executed s.command (.switch (.size s)) doc

end BuiltIn

open BuiltIn

/-- The commands of the standard vocabulary. -/
def vocabulary : List BuiltIn :=
  [executed "@endenvironment" .closeEnvironment "Close the group of an environment",
   expanded "@testopt" .supplyDefault "Insert a default optional argument if none follows",
   executed "advance" (.arithmetic .advance) "Add an integer or dimension to a variable",
   executed "begin" .beginEnvironment "Begin an environment, \\begin\x7bname\x7d",
   executed "begingroup" .beginGroup "Begin a group that must be ended with \\endgroup",
   executed "bfseries" (.switch (.weight .bold)) "Switch to the bold font weight",
   quantity "catcode" .catCode "Get or set the category code of a character",
   executed "color" .color "Switch the text color, \\color[model]\x7bname\x7d",
   quantity "count" (.register .count) "Get or set an integer register",
   executed "countdef" (.nameRegister .count) "Bind an integer register to a control sequence",
   expanded "csname" .csname "Build a control sequence from the characters up to \\endcsname",
   executed "def" (.define false false) "Define a custom macro",
   expanded "detokenize" .detokenize "Output balanced text as text",
   quantity "dimen" (.register .dimen) "Get or set a dimension register",
   executed "dimendef" (.nameRegister .dimen) "Bind a dimension register to a control sequence",
   executed "divide" (.arithmetic .divide) "Divide a variable by an integer",
   executed "document" .relax "Do nothing",
   executed "edef" (.define false true)
     "Define a custom macro, fully expanding the replacement text first",
   expanded "else" .elseBranch "Start the else branch of a conditional or switch statement",
   executed "em" (.switch .emphasis) "Toggle emphasis",
   executed "emph" (.styled .emphasis) "Emphasize the argument",
   executed "end" .endEnvironment "End an environment, \\end\x7bname\x7d",
   executed "endcsname" .endCsname "End a control sequence name started by \\csname",
   executed "enddocument" .relax "Do nothing",
   executed "endgroup" .endGroup "End a group that was begun with \\begingroup",
   expanded "endinput" .endInput "Stop reading the current file",
   expanded "expandafter" .expandAfter
     "Expand the token after the next token, then put the next token back",
   expanded "fi" .endIf "End a conditional or switch statement",
   executed "gdef" (.define true false) "Define a custom macro globally",
   executed "global" (.modifier .global) "Make the next assignment global",
   executed "href" .href "Create a hyperlink, \\href\x7burl\x7d\x7btext\x7d",
   expanded "ifcase" .ifCase "Begin a switch statement",
   expanded "ifdefined" .ifDefined "Check if a control sequence is defined",
   expanded "iffalse" .ifFalse "Evaluate the false branch",
   expanded "ifnum" .ifNum "Compare two integers",
   expanded "ifodd" .ifOdd "Check if an integer is odd",
   expanded "iftrue" .ifTrue "Evaluate the true branch",
   expanded "ifx" .ifSame "Check if two tokens have the same meaning",
   executed "includegraphics" .includeGraphics
     "Include a graphic, \\includegraphics[key=value,...]\x7bname\x7d",
   expanded "input" .input "Read the contents of a file as if they appeared at this point",
   executed "itshape" (.switch (.shape .italic)) "Switch to the italic font shape",
   executed "let" .letMeaning "Assign a command or character to a control sequence",
   executed "long" (.modifier .long) "Allow the arguments of the next macro to contain \\par",
   executed "makeatletter" (.makeAt .letter)
     "Make @ a letter, so that internal control sequences can be written",
   executed "makeatother" (.makeAt .other) "Make @ an other character again",
   executed "mdseries" (.switch (.weight .medium)) "Switch to the medium font weight",
   expanded "meaning" .meaning "Output the meaning of a token as text",
   executed "message" .message "Expand the argument and print it to the terminal",
   executed "multiply" (.arithmetic .multiply) "Multiply a variable by an integer",
   executed "newcommand" (.newCommand .new)
     "Define a new command; it is an error if the command already exists",
   executed "newenvironment" (.newEnvironment false) "Define a new environment",
   executed "newif" .newIf "Define a new boolean switch",
   expanded "noexpand" .noExpand "Prevent the next token from being expanded",
   executed "normalfont" (.switch .normalFont) "Reset the font family, weight and shape",
   expanded "number" .number "Output a number as text",
   expanded "or" .nextCase "Begin the next branch of a switch statement",
   executed "par" .par "End the current paragraph",
   executed "protected" (.modifier .shielded) "Keep the next macro from expanding inside \\edef",
   executed "providecommand" (.newCommand .provide)
     "Define a command if it does not already exist",
   executed "relax" .relax "Do nothing",
   executed "renewcommand" (.newCommand .renew) "Redefine an existing command",
   executed "renewenvironment" (.newEnvironment true) "Redefine an existing environment",
   executed "rmfamily" (.switch (.family .roman)) "Switch to the roman font family",
   expanded "romannumeral" .romanNumeral "Output a number in lowercase roman numerals",
   executed "scshape" (.switch (.shape .smallCaps)) "Switch to the small caps font shape",
   executed "sffamily" (.switch (.family .sansSerif)) "Switch to the sans serif font family",
   executed "show" .showMeaning "Print the meaning of a token to the terminal",
   executed "slshape" (.switch (.shape .slanted)) "Switch to the slanted font shape",
   expanded "string" .string "Output a token as text",
   executed "textbf" (.styled (.weight .bold)) "Typeset the argument in bold",
   executed "textcolor" .textColor
     "Typeset the argument in a color, \\textcolor[model]\x7bname\x7d\x7btext\x7d",
   executed "textit" (.styled (.shape .italic)) "Typeset the argument in italics",
   executed "textrm" (.styled (.family .roman)) "Typeset the argument in the roman font family",
   executed "textsc" (.styled (.shape .smallCaps)) "Typeset the argument in small caps",
   executed "textsf" (.styled (.family .sansSerif))
     "Typeset the argument in the sans serif font family",
   executed "textsl" (.styled (.shape .slanted)) "Typeset the argument slanted",
   executed "texttt" (.styled (.family .typewriter))
     "Typeset the argument in the typewriter font family",
   expanded "the" .the "Output the value of a variable as text",
   quantity "toks" (.register .toks) "Get or set a token list register",
   executed "toksdef" (.nameRegister .toks) "Bind a token list register to a control sequence",
   quantity "tracingmacros" (.fixed (.int .tracingMacros)) "Log macro expansions when positive",
   executed "ttfamily" (.switch (.family .typewriter)) "Switch to the typewriter font family",
   executed "upshape" (.switch (.shape .upright)) "Switch to the upright font shape",
   executed "verb" .verb "Typeset text verbatim, like \\verb|text| or \\verb*|text|",
   executed "xdef" (.define true true)
     "Define a custom macro globally, fully expanding the replacement text first",
   sized .tiny "Switch to the tiny font size",
   sized .scriptSize "Switch to the script font size",
   sized .footnoteSize "Switch to the footnote font size",
   sized .small "Switch to the small font size",
   sized .normalSize "Switch to the normal font size",
   sized .large "Switch to the large font size, \\large",
   sized .larger "Switch to the larger font size, \\Large",
   sized .largest "Switch to the largest font size, \\LARGE",
   sized .huge "Switch to the huge font size, \\huge",
   sized .hugest "Switch to the hugest font size, \\Huge"]

/-- The first of the texts in alphabetical order. -/
def leastText? : List String → Option String
  | [] => none
  | s :: rest => some (rest.foldl (fun least t => if t < least then t else least) s)

/-- The name under which a command is known among the given ones: the least one that has its meaning. -/
def nameAmong? (builtIns : List BuiltIn) (c : Command) : Option String :=
  leastText? (builtIns.filterMap fun b => if b.command.sameMeaning c then some b.name else none)

/-- The meaning of a token as it is shown to the user. -/
def meaningText (builtIns : List BuiltIn) (bindings : Bindings) (t : Token) : String :=
  let character (category : CharCategory) (c : Char) : String :=
    let kind :=
      match category with
      | .beginGroup => "begin-group character"
      | .endGroup => "end-group character"
      | .mathShift => "math shift character"
      | .alignmentTab => "alignment tab character"
      | .parameter => "macro parameter character"
      | .superscript => "superscript character"
      | .subscript => "subscript character"
      | .space => "blank space"
      | .letter => "the letter"
      | .other => "the character"
    kind ++ " " ++ c.toString
  match t.value with
  | .char category c => character category c
  | .command ref =>
    match bindings.lookup ref with
    | .custom m => m.meaning
    | .character category c => character category c
    | .undefined => "undefined"
    | command =>
      match nameAmong? builtIns command with
      | some name => "\\" ++ name
      | none => ref.text

end Gullet
