import Gullet.Token
import Gullet.Word

/-!
# What was expected

When the input does not continue as the grammar demands, the report says what was expected and what
stands there instead. This module holds the wording for each element of the grammar.
-/

namespace Gullet

/-- The radixes in which constants are written. -/
inductive Radix where
  | octal
  | decimal
  | hexadecimal
deriving DecidableEq, Repr

/-- The number that the radix stands for. -/
def Radix.base : Radix → Nat
  | octal => 8
  | decimal => 10
  | hexadecimal => 16

/-- A natural number in the radix, with upper-case digits. -/
def Radix.digits (r : Radix) (n : Nat) : String :=
  String.ofList ((Nat.toDigits r.base n).map Char.toUpper)

/-- An element of the grammar that the input lacks. -/
inductive Expectation where
  /-- A command reference. -/
  | commandRef
  /-- A token list. -/
  | tokenList
  /-- A category code; a number out of range was read. -/
  | categoryCode (got : Int)
  /-- A number. -/
  | number
  /-- A number; a command was found, which is described. -/
  | numberNotCommand (description : String)
  /-- A character after a grave accent. -/
  | character
  /-- A digit of the radix. -/
  | digit (radix : Radix)
  /-- A number that is not too large; the digit `digit` after `soFar` makes it so. -/
  | smallerNumber (radix : Radix) (soFar digit : Nat)
  /-- An argument. -/
  | argument
  /-- The end of an argument that is a number. -/
  | endOfNumber
  /-- One of the three relations. -/
  | relation
  /-- A unit of length. -/
  | unit
  /-- A dimension that is not too large. -/
  | smallerDimen
  /-- A variable; a command was found, which is described. -/
  | variableNotCommand (description : String)
  /-- A variable; a character was found. -/
  | variableNotCharacter
  /-- The name of a command that is being defined. -/
  | commandName
deriving DecidableEq, Repr

/-- How numbers begin. -/
def numberGuidance : String :=
  "a number begins with zero or more minus signs followed by one of the following:\n" ++
  "- A decimal digit (0-9), which begins a decimal number.\n" ++
  "- The character ', which indicates the beginning of an octal number\n" ++
  "- The character \", which indicates the beginning of a hexadecimal number\n" ++
  "- The character `, followed by a character token. The character is converted into its " ++
  "UTF-8 number.\n" ++
  "- A command that references a variable, like \\count1.\n"

/-- What a character after a grave accent is. -/
def characterGuidance : String :=
  "a character is a character token or single-character control sequence like \\a"

namespace Expectation

/-- The element in words. -/
def wanted : Expectation → String
  | commandRef => "a control sequence or active character"
  | tokenList => "a token list"
  | categoryCode _ => "a category code number (an integer in the range [0, 15])"
  | number | numberNotCommand _ => "the beginning of a number"
  | character => "a character"
  | digit .octal => "an octal digit"
  | digit _ => "a hexadecimal digit"
  | smallerNumber .octal _ _ => "a number in the range ['20000000001, '17777777777]"
  | smallerNumber .hexadecimal _ _ => "a number in the range [-\"7FFFFFFF, \"7FFFFFFF]"
  | smallerNumber .decimal _ _ => "a number in the range [-2147483647, 2147483647]"
  | argument => "an argument"
  | endOfNumber => "the end of the numerical argument"
  | relation => "a relation"
  | unit => "a unit of length"
  | smallerDimen => "a dimension in the range (-2^14pt,2^14pt)"
  | variableNotCommand _ | variableNotCharacter => "a variable"
  | commandName => "a control sequence"

/-- What the element looks like. -/
def guidance? : Expectation → Option String
  | commandRef => some "a command must be a control sequence or an active character"
  | tokenList =>
    some ("a token list is balanced text in braces like \x7babc\x7d, or a token list variable " ++
      "like \\toks0")
  | number | numberNotCommand _ => some numberGuidance
  | character => some characterGuidance
  | digit .octal => some "an octal digit is a token with value 0-7 and category other"
  | digit _ =>
    some ("a hexadecimal digit is either:\n- A character token with value 0-9 and category " ++
      "other, or\n- A character token with value A-F and category letter or other")
  | argument => some "an argument is balanced text in braces like \x7babc\x7d, or a single token"
  | endOfNumber => some "a numerical argument contains only a number, like \x7b12\x7d"
  | relation =>
    some ("a relation is a token with category code other (12) and one of the following " ++
      "values: <, =, >")
  | unit => some "the supported units are pt, in, pc, cm, mm, bp, dd, cc and sp"
  | commandName =>
    some ("the name of a command is a single control sequence, like " ++
      "\\newcommand\x7b\\foo\x7d\x7b...\x7d")
  | categoryCode _ | smallerNumber _ _ _ | smallerDimen | variableNotCommand _
  | variableNotCharacter => none

/-- What was found, where more is known than the token tells. -/
def found? : Expectation → Option String
  | categoryCode got => some ("got the integer " ++ toString got)
  | smallerNumber r soFar d =>
    let mark :=
      match r with
      | .octal => "'"
      | .decimal => ""
      | .hexadecimal => "\""
    some ("got " ++ mark ++ r.digits soFar ++ r.digits d)
  | smallerDimen => some "a dimension that's too large"
  | variableNotCommand _ => some "got a non-variable command"
  | variableNotCharacter => some "got a character token"
  | _ => none

/-- What is written under the token, where more is known than the token tells. -/
def caption? : Expectation → Option String
  | categoryCode _ => some "this is where the number started"
  | numberNotCommand description | variableNotCommand description => some description
  | smallerNumber _ _ _ => some "this digit makes the number too big"
  | _ => none

end Expectation

/-- A token that was found instead of what was expected, in words. -/
def foundInstead : Option Token → String
  | none => "the input ended"
  | some t =>
    match t.value with
    | .char .letter c => "found the letter " ++ c.toString
    | .char .other c => "found a non-letter character " ++ c.toString
    | .command ref => "found the control sequence " ++ ref.text
    | .char category c =>
      "found a token with value " ++ c.toString ++ " and category code " ++ category.code.text

/-- What was being read when the input ended. -/
inductive Activity where
  | number
  | dimen
  | character
  | tokenList
  | argument
  | optionalArgument
  | macroLead
  | delimitedArgument (number delimiterLength : Nat)
  | undelimitedArgument (number : Nat)
  | firstCompared
  | secondCompared
  | definedTest
  | verbDelimiter
  | verbText
  | theArgument
  | stringArgument
  | csname
  | meaningArgument
  | afterPrefix
  | shown
  | letMeaning
  | parameterText
  | parameterNumber
  | arithmeticVariable
deriving DecidableEq, Repr

namespace Activity

/-- The activity in words. -/
def words : Activity → String
  | number => "parsing a number"
  | dimen => "parsing a dimension"
  | character => "parsing a character"
  | tokenList => "parsing a token list"
  | argument => "popping an argument"
  | optionalArgument => "popping an optional argument"
  | macroLead => "matching the prefix of a user-defined macro"
  | delimitedArgument _ _ => "parsing a delimited argument for a macro"
  | undelimitedArgument _ => "parsing an undelimited argument for a macro"
  | firstCompared => "reading the first token after \\ifx"
  | secondCompared => "reading the second token after \\ifx"
  | definedTest => "reading the token after \\ifdefined"
  | verbDelimiter => "reading the delimiter of \\verb"
  | verbText => "reading the verbatim text of \\verb"
  | theArgument => "reading the argument of \\the"
  | stringArgument => "reading the argument of \\string"
  | csname => "reading the name after \\csname"
  | meaningArgument => "reading the argument of \\meaning"
  | afterPrefix => "reading the command after a prefix"
  | shown => "reading the token after \\show"
  | letMeaning => "reading the right hand side of a \\let assignment"
  | parameterText => "reading the parameter text of a macro"
  | parameterNumber => "reading the token after a parameter token"
  | arithmeticVariable => "reading the variable after an arithmetic command"

/-- What helps to complete the activity. -/
def notes : Activity → List String
  | number => [numberGuidance]
  | character => [characterGuidance]
  | optionalArgument => ["an optional argument must be closed with ]"]
  | delimitedArgument n len =>
    ["this is argument number " ++ toString n ++ " for this macro",
     "the argument ends at the first balanced occurrence of its " ++ toString len ++
       " delimiter token(s)"]
  | undelimitedArgument n => ["this is argument number " ++ toString n ++ " for this macro"]
  | _ => []

end Activity

end Gullet
