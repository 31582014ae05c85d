import Gullet.Reader.Keyword
import Gullet.Variable

/-!
# Reading numbers

A number is a run of signs and spaces followed by a decimal, octal or hexadecimal constant, a character
after a grave accent, or a variable. The index of a register is itself a number, so reading numbers
calls itself.
-/

namespace Gullet

/-- A number that a variable holds. -/
inductive InternalNumber where
  | integer (n : Int)
  | dimen (d : Dimen)

namespace Reader

/-- The value of a decimal digit. -/
def decimalDigit? (c : Char) : Option Nat := if c.isDigit then some (c.toNat - '0'.toNat) else none

/-- The value of an upper-case letter among the hexadecimal digits. -/
def hexLetter? (c : Char) : Option Nat :=
  if 'A' ≤ c && c ≤ 'F' then some (c.toNat - 'A'.toNat + 10) else none

/-- The value of a token as a digit of the radix. -/
def digit? (r : Radix) : TokenValue → Option Nat
  | .char .other c =>
    match decimalDigit? c with
    | some d => if d < r.base then some d else none
    | none => if r = .hexadecimal then hexLetter? c else none
  | .char .letter c => if r = .hexadecimal then hexLetter? c else none
  | _ => none

/-- Reads signs and spaces, and tells whether the number of minus signs is odd. -/
def signs (s : Stream) : Run Bool :=
  Run.loop (fun (negative : Bool) => do
    let sign ← s.take? fun
      | .char .other '+' | .char .space _ => some false
      | .char .other '-' => some true
      | _ => none
    match sign with
    | none => return .inr negative
    | some minus => return .inl (negative != minus)) false

/-- Reads the digits of a constant after those that make `soFar`. `started` says whether there were
any. -/
def digits (s : Stream) (r : Radix) (soFar : Nat) (started : Bool) : Run Nat := do
  let (n, started) ← Run.loop (fun ((n, started) : Nat × Bool) => do
    match ← s with
    | none => return .inr (n, started)
    | some t =>
      match digit? r t.value with
      | none =>
        Run.pushBack t
        return .inr (n, started)
      | some d =>
        let n' := n * r.base + d
        if Word.fits n' then return .inl (n', true)
        else Run.fail (.expected (.smallerNumber r n d) (some t))) (soFar, started)
  if started then return n
  else
    let got ← s.peek
    Run.fail (.expected (.digit r) got)

/-- Reads the character after a grave accent, without expansion. -/
def character : Run Int := do
  let t ← Stream.raw.nextOr .character
  match t.value with
  | .char _ c | .command (.active c) => return c.toNat
  | .command (.controlSequence name) =>
    match name.toList with
    | [c] => return c.toNat
    | _ => Run.fail (.expected .character (some t))

/-- Reads a number that is less than `bound` and not negative. -/
def bounded (number : Run (Token × Int)) (bound : Nat) : Run Nat := do
  let (first, n) ← number
  if 0 ≤ n && n < bound then return n.toNat
  else Run.fail (.outOfBounds first bound n)

/-- The variable that a command stands for. The index of a register is read by `number`. -/
def resolve (number : Run (Token × Int)) (t : Token) : VariableCommand → Run Variable
  | .fixed v => return v
  | .register kind =>
    Run.during .variableIndex t do
      return kind.register (← bounded number kind.number)
  | .catCode =>
    Run.during .variableIndex t do
      return .catCode (← bounded number codePointCount)

/-- Reads the number that a command holds. -/
def internalNumber (number : Run (Token × Int)) (t : Token) (ref : CommandRef) :
    Run InternalNumber := do
  match ← Run.lookup ref with
  | .quantity v =>
    match ← resolve number t v with
    | .int v => return .integer ((← get).scopes.store.int v)
    | .dimen i => return .dimen ((← get).scopes.store.dimen i)
    | .catCode c => return .integer ((← get).scopes.store.catCode c).number
    | .tokenList _ => Run.fail (.tokenListAsNumber t)
  | .undefined =>
    Run.fail (.expected (.numberNotCommand "undefined control sequence") (some t))
  | command =>
    let description := "control sequence referencing " ++ command.words
    Run.fail (.expected (.numberNotCommand description) (some t))

/-- Reads a constant, and a space if one follows it. -/
def constant (s : Stream) (n : Run Int) : Run Int := do
  let n ← n
  _ ← s.takeSpace
  return n

/-- Reads a number, given how to read the numbers inside it. A constant may be followed by a space. -/
def numberWith (x : Expander) (number : Run (Token × Int)) : Run (Token × Int) := do
  let s := Stream.expanded x
  let negative ← signs s
  let first ← s.nextOr .number
  let n ←
    match first.value with
    | .char .other c =>
      match decimalDigit? c with
      | some d => constant s (Int.ofNat <$> digits s .decimal d true)
      | none =>
        if c = '\'' then constant s (Int.ofNat <$> digits s .octal 0 false)
        else if c = '"' then constant s (Int.ofNat <$> digits s .hexadecimal 0 false)
        else if c = '`' then constant s character
        else Run.fail (.expected .number (some first))
    | .command ref =>
      match ← internalNumber number first ref with
      | .integer n => pure n
      | .dimen d => pure d.scaled
    | _ => Run.fail (.expected .number (some first))
  return (first, if negative then Word.wrap (-n) else n)

/-- Reads a number, and gives the token after its signs too. -/
def numberAt (x : Expander) : Run (Token × Int) := Run.fix (numberWith x)

/-- Reads a number. -/
def number (x : Expander) : Run Int := do
  return (← numberAt x).2

/-- Reads a number that is less than `bound` and not negative. -/
def natural (x : Expander) (bound : Nat) : Run Nat := bounded (numberAt x) bound

/-- Reads a category code. -/
def catCode (x : Expander) : Run CatCode := do
  let (first, n) ← numberAt x
  match CatCode.ofInt? n with
  | some c => return c
  | none => Run.fail (.expected (.categoryCode n) (some first))

/-- The variable that a command stands for. -/
def variableOf (x : Expander) (t : Token) (v : VariableCommand) : Run Variable :=
  resolve (numberAt x) t v

end Reader

end Gullet
