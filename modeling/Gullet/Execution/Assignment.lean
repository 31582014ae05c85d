import Gullet.Expansion
import Gullet.Reader.Dimen
import Gullet.Spelling

/-!
# Assignments

Changing variables, and the prefixes that change how.
-/

namespace Gullet

namespace Run

/-- The fault of a token that stands for nothing, with the nearest known name. -/
def undefinedFault (t : Token) : Run Fault := do
  match t.value with
  | .command (.controlSequence name) =>
    let close := Spelling.closeWords (← get).scopes.bindings.names name
    return .undefinedCommand t (close.head?.map (·.word))
  | _ => return .undefinedCommand t none

end Run

namespace Assignment

/-- Reads a value for a variable and assigns it. -/
def assign (scope : Scope) : Variable → Run Unit
  | .int v => do
    let n ← Reader.number expand
    Run.write scope (.int v n)
  | .dimen index => do
    let d ← Reader.dimen expand
    Run.write scope (.dimen index d)
  | .tokenList index => do
    let ts ← Reader.tokenList expand
    Run.write scope (.tokenList index ts)
  | .catCode c => do
    let code ← Reader.catCode expand
    Run.write scope (.catCode c code)

/-- Runs a variable as a command: assigns it the value that follows, after an optional equals sign. -/
def ofVariable (t : Token) (command : VariableCommand) : Run Unit := do
  let scope ← Run.takeScope
  let v ← Reader.variableOf expand t command
  Run.during .variableAssignment t do
    Stream.main.optionalEquals
    assign scope v

/-- The commands `\makeatletter` and `\makeatother`: change the category of the at sign. -/
def atSign (code : CatCode) : Run Unit := do
  let scope ← Run.takeScope
  Run.write scope (.catCode '@'.toNat code)

/-- Reads a command that must be a variable. -/
def target : Run (Token × VariableCommand) := do
  let t ← Stream.main.nextOr .arithmeticVariable
  match t.value with
  | .char _ _ => Run.fail (.expected .variableNotCharacter (some t))
  | .command ref =>
    match ← Run.lookup ref with
    | .quantity v => return (t, v)
    | .undefined => Run.fail (← Run.undefinedFault t)
    | command =>
      let description := "control sequence referencing " ++ command.words
      Run.fail (.expected (.variableNotCommand description) (some t))

/-- The result of an operation by an integer, which must exist. If it does not, the other operand is
written into the failure. -/
def orOverflow {α : Type} (op : Arithmetic) (left : Run String) (right : Int) : Option α → Run α
  | some a => return a
  | none => do Run.fail (.arithmeticOverflow op (← left) (toString right))

/-- The number that an operation makes of `n`. Its operand is read from the input. Addition wraps
around. -/
def onInteger (op : Arithmetic) (n : Int) : Run Int := do
  let operand ← Reader.number expand
  match op with
  | .advance => return Word.wrap (n + operand)
  | .multiply => orOverflow op (pure (toString n)) operand (Word.checked? (n * operand))
  | .divide =>
    if operand = 0 then Run.fail (.divisionByZero (toString n))
    else orOverflow op (pure (toString n)) operand (Word.div? n operand)

/-- The dimension that an operation makes of `d`. Its operand is read from the input. Addition wraps
around. -/
def onDimen (op : Arithmetic) (d : Dimen) : Run Dimen := do
  match op with
  | .advance =>
    let operand ← Reader.dimen expand
    return ⟨Word.wrap (d.scaled + operand.scaled)⟩
  | .multiply =>
    let operand ← Reader.number expand
    orOverflow op (Conversion.dimenText d) operand (d.mul? operand)
  | .divide =>
    let operand ← Reader.number expand
    if operand = 0 then Run.fail (.divisionByZero (← Conversion.dimenText d))
    else orOverflow op (Conversion.dimenText d) operand (d.div? operand)

/-- The command `\advance` and its kin: changes a variable by an operation. -/
def arithmetic (op : Arithmetic) (t : Token) : Run Unit := do
  let scope ← Run.takeScope
  let (name, command) ← target
  let v ← Reader.variableOf expand name command
  _ ← Stream.main.keyword "by"
  match v with
  | .int i =>
    let n ← onInteger op ((← get).scopes.store.int i)
    Run.write scope (.int i n)
  | .dimen index =>
    let d ← onDimen op ((← get).scopes.store.dimen index)
    Run.write scope (.dimen index d)
  | v => Run.fail (.arithmeticOn t v)

/-- Prefixes that have been read, with the last token of each kind. -/
structure PrefixTokens where
  everywhere : Option Token := none
  long : Option Token := none
  shielded : Option Token := none

namespace PrefixTokens

/-- Adds a prefix. -/
def add (p : PrefixTokens) (t : Token) : PrefixKind → PrefixTokens
  | .global => { p with everywhere := some t }
  | .long => { p with long := some t }
  | .shielded => { p with shielded := some t }

/-- The prefix that a command does not take, if there is one. -/
def refused (p : PrefixTokens) (takesGlobal takesAll : Bool) : Option Token :=
  let others := p.long.or p.shielded
  if takesAll then none else if takesGlobal then others else p.everywhere.or others

end PrefixTokens

/-- Reads further prefixes, and the command after them. -/
def prefixes (p : PrefixTokens) : Run (PrefixTokens × Token) :=
  Run.loop (fun (p : PrefixTokens) => do
    let t ← Stream.main.nextOr .afterPrefix
    if t.value.isSpace then return .inl p
    else
      match (← get).scopes.bindings.tagOf? t with
      | some (.modifier kind) => return .inl (p.add t kind)
      | _ => return .inr (p, t)) p

/-- The command `\global` and its kin: makes the command that follows take effect in another way.
The command must be one that takes the prefix. -/
def modifier (kind : PrefixKind) (t : Token) : Run Unit := do
  let (p, next) ← prefixes (PrefixTokens.add {} t kind)
  match next.value with
  | .char _ _ => Run.fail (.prefixedCharacter next)
  | .command ref =>
    let (takesGlobal, takesAll) :=
      match ← Run.lookup ref with
      | .quantity _ => (true, false)
      | command =>
        match command.tag? with
        | some tag => (tag.acceptsGlobal, tag.acceptsAnyPrefix)
        | none => (false, false)
    match p.refused takesGlobal takesAll with
    | some offending =>
      Run.fail (.prefixRefused next ref.text offending.value.spelling)
    | none =>
      Run.pushBack next
      modify fun m =>
        { m with
          prefixes :=
            { everywhere := p.everywhere.isSome
              long := p.long.isSome
              shielded := p.shielded.isSome } }

end Assignment

end Gullet
