import Gullet.Session

/-!
# Checks

Checks of what a text does: that it gives the same output as another one, that it fails, or which events
it causes. The output of a text is the list of the characters that reach the handlers. A check that does
not hold says why.
-/

namespace Gullet.Check

/-- The circumstances of a check. -/
structure Setup where
  /-- The vocabulary. -/
  builtIns : List BuiltIn := []
  /-- Whether commands that stand for nothing are part of the output. -/
  undefinedToo : Bool := false
  /-- Whether failures from which the interpreter can recover are counted, or fatal. -/
  recover : Bool := false
  /-- The greatest number of expansions. -/
  maxExpansions : Nat := 1000000
  /-- Whether reports are styled. -/
  styling : Text.Styling := .plain

/-- What a check gives: what it has printed, and its result or the reason why it does not hold. -/
structure Verdict (α : Type) where
  printed : String := ""
  result : Except String α

/-- The names that are bound in checks. -/
def checkedNames : List String :=
  ["@endenvironment", "@testopt", "advance", "begin", "begingroup", "csname", "divide", "end",
   "endcsname", "endgroup", "expandafter", "message", "multiply", "newcommand", "newenvironment",
   "noexpand", "number", "par", "relax", "renewcommand", "string", "the"]

/-- The vocabulary that is bound in checks, with an integer to try things out. -/
def checkedVocabulary : List BuiltIn :=
  (vocabulary.filter fun b => checkedNames.contains b.name) ++
    [{ name := "integer", command := .quantity (.fixed (.int .scratch)) }]

/-- Where the texts of checks are said to come from. -/
def origin : Origin := .text "testing.tex"

/-- The machine for a check. -/
def machine (s : Setup) : Machine :=
  { Machine.ofBuiltIns s.builtIns with
    policy := { recovery := if s.recover then .tally else .refuse, honoursNoExpand := false }
    config.maxExpansions := s.maxExpansions
    styling := s.styling }

/-- Why a run stopped, in words. -/
def reason (styling : Text.Styling) : Halt → String
  | .failed d => d.render styling
  | .overflow => "a number is too large"
  | .reversedSlice => "a part of a source ends before it begins"
  | .outOfSteps => "the run does not end"

/-- Runs a text. Gives its output, and the machine afterwards. -/
def output (s : Setup) (source : String) : Except Halt (List Token) × Machine :=
  let (result, m) := Session.parse (.collecting s.undefinedToo) origin source (machine s)
  (result.map fun () => m.output.collected.reverse, m)

/-- The output without a space at its end. -/
def withoutFinalSpace (ts : List Token) : List Token :=
  match ts.getLast? with
  | some t => if t.value.isSpace then ts.dropLast else ts
  | none => ts

/-- What is printed about two outputs that differ. -/
def differenceText (left right : List Token) : String :=
  "Expansion output is different:\n------[lhs]------\n'" ++ Token.write left ++
    "'\n------[rhs]------\n'" ++ Token.write right ++ "'\n-----------------\n"

/-- Judges the number of counted failures. -/
def judgeTally (expectFailures : Bool) (tallied : Nat) : Except String Unit :=
  match expectFailures, tallied with
  | true, 0 => .error "expected recoverable errors but didn't have any"
  | true, _ + 1 | false, 0 => .ok ()
  | false, n + 1 =>
    .error ("did not expect recoverable errors but had " ++ toString (n + 1) ++
      " recoverable errors")

/-- Checks that two texts have the same output, and whether the first has failures. -/
def sameOutput (s : Setup) (expectFailures : Bool) (left right : String) : Verdict Unit :=
  match output s left with
  | (.error h, _) =>
    { result := .error ("running the left hand side failed:\n" ++ reason s.styling h) }
  | (.ok l, m) =>
    match output s right with
    | (.error h, _) =>
      { result := .error ("running the right hand side failed:\n" ++ reason s.styling h) }
    | (.ok r, _) =>
      let l := withoutFinalSpace l
      let r := withoutFinalSpace r
      if l.map Token.value = r.map Token.value then
        { result := judgeTally expectFailures m.output.tallied }
      else { printed := differenceText l r, result := .error "Expansion test failed" }

/-- Checks that a text fails. Gives the failure. -/
def failure (s : Setup) (source : String) : Verdict Halt :=
  match output s source with
  | (.ok ts, _) =>
    { printed := "Expansion succeeded:\n" ++ Token.write ts ++ "\n"
      result := .error "Expansion failure test did not pass: expansion successful" }
  | (.error h, _) => { printed := reason s.styling h ++ "\n", result := .ok h }

/-- Checks that a text fails where failures are fatal, and that it has the output of another text where
they are not. -/
def recoverableFailure (s : Setup) (left right : String) : Verdict Unit :=
  let strict := failure { s with recover := false } left
  match strict.result with
  | .error e => { printed := strict.printed, result := .error e }
  | .ok _ =>
    let lenient := sameOutput { s with recover := true } true left right
    { lenient with printed := strict.printed ++ lenient.printed }

/-- The events of a text, which must not fail. -/
def events (s : Setup) (source : String) : Verdict (List Event) :=
  match Session.parse .writing origin source (machine s) with
  | (.error h, _) => { result := .error ("parsing failed:\n" ++ reason s.styling h) }
  | (.ok (), m) => { result := .ok (Event.joinWrites m.output.events.reverse) }

end Gullet.Check
