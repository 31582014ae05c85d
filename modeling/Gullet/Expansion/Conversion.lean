import Gullet.Reader.Argument

/-!
# Conversions

The commands that put a text in front of the input: values, numbers, names and meanings. The characters
of the text carry the key of the command. The opposite conversion makes a control sequence of a text.
-/

namespace Gullet

/-- The numerals and their values, greatest first. -/
def romanNumerals : List (Nat × String) :=
  [(1000, "m"), (900, "cm"), (500, "d"), (400, "cd"), (100, "c"), (90, "xc"), (50, "l"),
   (40, "xl"), (10, "x"), (9, "ix"), (5, "v"), (4, "iv"), (1, "i")]

/-- A natural number in the given numerals: each as often as its value fits. -/
def romanFrom : List (Nat × String) → Nat → String
  | [], _ => ""
  | (value, numeral) :: rest, n =>
    String.join (List.replicate (n / value) numeral) ++ romanFrom rest (n % value)

/-- An integer in lower-case roman numerals; nothing if it is not positive. -/
def romanText (n : Int) : String := romanFrom romanNumerals n.toNat

namespace Conversion

/-- Puts the characters of a text in front of the input, on behalf of a command. -/
def pushText (t : Token) (s : String) : Run Unit := Run.pushTokens (Token.ofText s t.key)

/-- Writes a dimension. Its sign is written apart from the rest, but the least word is not without its
sign a word. -/
def dimenText (d : Dimen) : Run String :=
  if d.scaled = Word.least then throw .overflow else return d.text

/-- The command `\the`: the value of a variable. -/
def value (x : Expander) (t : Token) : Run Unit := do
  let target ← (Stream.expanded x).nextOr .theArgument
  match target.value with
  | .char _ _ => Run.fail (.theCharacter target)
  | .command ref =>
    match ← Run.lookup ref with
    | .quantity command =>
      let v ← Reader.variableOf x target command
      let store := (← get).scopes.store
      match v with
      | .int v => pushText t (toString (store.int v))
      | .dimen index => pushText t (← dimenText (store.dimen index))
      | .catCode c => pushText t (toString (store.catCode c).number)
      | .tokenList index => Run.pushTokens (store.tokenList index)
    | _ => Run.fail (.theCommand target ref.text)

/-- The command `\number`: a number in decimal digits. -/
def decimal (x : Expander) (t : Token) : Run Unit := do
  pushText t (toString (← Reader.number x))

/-- The command `\romannumeral`: a number in roman numerals. -/
def roman (x : Expander) (t : Token) : Run Unit := do
  pushText t (romanText (← Reader.number x))

/-- The command `\string`: the spelling of a token. -/
def spelling (t : Token) : Run Unit := do
  pushText t (← Stream.raw.nextOr .stringArgument).value.spelling

/-- The command `\detokenize`: an argument as it would be written. -/
def written (t : Token) : Run Unit := do
  pushText t (Token.write (← Reader.argument))

/-- The command `\meaning`: the meaning of a token. -/
def meaning (t : Token) : Run Unit := do
  let target ← Stream.raw.nextOr .meaningArgument
  let m ← get
  pushText t (meaningText m.builtIns m.scopes.bindings target)

/-- The command `\csname`: the control sequence whose name is spelled by the characters up to
`\endcsname`. If it stands for nothing, it is made to stand for a command that does nothing. -/
def name (x : Expander) (t : Token) : Run Unit := do
  let chars ← Run.loop (fun (sofar : List Char) => do
    let next ← (Stream.expanded x).nextOr .csname
    match next.value with
    | .char _ c => return .inl (c :: sofar)
    | .command ref =>
      if (← Run.lookup ref).tag? = some .endCsname then return .inr sofar.reverse
      else Run.fail (.commandInName next ref.text)) []
  let ref := CommandRef.controlSequence (String.ofList chars)
  unless (← Run.lookup ref).isDefined do
    Run.bindRef .inner ref (.execution .relax)
  Run.pushTokens [⟨.command ref, t.key⟩]

end Conversion

end Gullet
