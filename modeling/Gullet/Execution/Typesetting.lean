import Gullet.Execution.Definition

/-!
# Typesetting

The commands and characters that give something out: text with its settings, verbatim text, formulas,
links, graphics and messages.
-/

namespace Gullet.Typesetting

/-- Goes on with an argument as a group of its own, with changed settings. The group is opened and
closed on behalf of the command. -/
def inGroup (t : Token) (change : Settings → Settings) (argument : List Token) : Run Unit := do
  Run.beginGroup .brace t
  Run.mapSettings change
  Run.pushTokens (argument ++ [.char .endGroup '\x7d' t.key])

/-- Typesets the argument with changed settings. -/
def styled (change : SettingsChange) (t : Token) : Run Unit := do
  inGroup t (fun s => change.apply s) (← Reader.argument)

/-- Reads the name of a colour. The name of a colour model may stand in front. -/
def colorName : Run String := do
  let model ←
    match ← Reader.optionalArgument with
    | none => pure none
    | some ts => pure (some (Text.trim (Token.write (← Stream.expandFully expand ts))))
  let name ← Reader.label expand
  match model with
  | none => return name
  | some model => return model ++ ":" ++ name

/-- The settings with another colour of the text. -/
def withColor (name : String) (s : Settings) : Settings := { s with foreground := some name }

/-- The command `\color`: changes the colour of the text. -/
def color : Run Unit := do
  Run.mapSettings (withColor (← colorName))

/-- The command `\textcolor`: typesets an argument in a colour. -/
def textColor (t : Token) : Run Unit := do
  let name ← colorName
  inGroup t (withColor name) (← Reader.argument)

/-! ### Verbatim text -/

/-- Runs an action with the categories of verbatim text. -/
def withVerbatimCodes {α : Type} (action : Run α) : Run α := fun m =>
  let (result, after) := action (m.change .verbatim)
  (result, after.change (.restored m.scopes.store.catCodes))

/-- Reads verbatim text: everything between two copies of a character, on one line. -/
def verbatim (t : Token) : Run String := do
  let first ← Stream.raw.nextOr .verbDelimiter
  match first.value with
  | .command _ => Run.fail (.verbDelimiter first)
  | .char _ delimiter =>
    Run.loop (fun (sofar : String) => do
      let next ← Stream.raw.nextOr .verbText
      match next.value with
      | .command ref => return .inl (sofar ++ ref.text)
      | .char _ c =>
        if isLineEnd c then Run.fail (.verbLineEnd t delimiter)
        else if c = delimiter then return .inr sofar
        else return .inl (sofar.push c)) ""

/-- The command `\verb`: gives out verbatim text. -/
def verb (t : Token) : Run Unit := do
  let starred ← Reader.modifier '*'
  let text ← withVerbatimCodes (verbatim t)
  Run.emit (.verb text starred)

/-! ### Links and graphics -/

/-- The command `\href`: gives out a link. -/
def href : Run Unit := do
  let url := Token.write (← Reader.argument)
  let text := Token.write (← Stream.expandFully expand (← Reader.argument))
  Run.emit (.href (Text.trim url) (Text.trim text))

/-- The parts of a list of tokens between the commas outside braces, `depth` of which are open. -/
def splitAtCommas : (depth : Nat) → List Token → List (List Token)
  | _, [] => [[]]
  | depth, t :: rest =>
    if t.value = .char .other ',' ∧ depth = 0 then [] :: splitAtCommas depth rest
    else
      let depth :=
        if t.value.isBeginGroup then depth + 1
        else if t.value.isEndGroup then depth - 1
        else depth
      match splitAtCommas depth rest with
      | [] => [[t]]
      | part :: parts => (t :: part) :: parts

/-- A value without the braces around it, if there are any. -/
def withoutValueBraces (chars : List Char) : List Char :=
  match chars with
  | '\x7b' :: rest => if rest.getLast? = some '\x7d' then rest.dropLast else chars
  | _ => chars

/-- The key and the value that a text says. An empty text says nothing. -/
def keyValue? (s : String) : Option (String × String) :=
  let chars := (Text.trim s).toList
  if chars.isEmpty then none
  else
    let key := String.ofList (chars.takeWhile (· ≠ '='))
    let value := Text.trim (String.ofList (chars.dropWhile (· ≠ '=')).tail)
    some (Text.trim key, String.ofList (withoutValueBraces value.toList))

/-- The options that an optional argument says. -/
def options (ts : List Token) : List (String × String) :=
  (splitAtCommas 0 ts).filterMap fun part => keyValue? (Token.write part)

/-- The command `\includegraphics`: gives out a graphic. -/
def includeGraphics : Run Unit := do
  _ ← Reader.modifier '*'
  let given ← Reader.optionalArgument
  let name ← Reader.label expand
  Run.emit (.includeGraphics (options (given.getD [])) name)
  Run.emit (.fileReference ⟨name⟩)

/-! ### Messages -/

/-- Writes a line to the terminal and to the log. -/
def announce (s : String) : Run Unit := do
  Run.writeTerminal (s ++ "\n")
  Run.writeLog (s ++ "\n")

/-- The command `\message`: gives out a message. -/
def message : Run Unit := do
  let text := Token.write (← Stream.expandFully expand (← Reader.argument))
  announce text
  Run.emit (.message text)

/-- The command `\show`: writes the meaning of a token. -/
def showMeaning : Run Unit := do
  let t ← Stream.raw.nextOr .shown
  let m ← get
  let meaning := meaningText m.builtIns m.scopes.bindings t
  announce <|
    match t.value with
    | .command ref => "> " ++ ref.text ++ "=" ++ meaning ++ "."
    | .char _ _ => "> " ++ meaning ++ "."

/-! ### Characters -/

/-- Gives out a superscript or subscript with its argument. -/
def script (t : Token) (event : String → Object → Event) : Run Unit := do
  match ← Reader.object expand with
  | none => Run.fail (.missingScript t)
  | some argument =>
    let text :=
      match argument with
      | .group g => Token.write g.content
      | o => o.text
    Run.emit (event text argument)

/-- Gives out a character. -/
def writeChar (c : Char) : Run Unit := do
  Run.emit (.write c.toString (← get).scopes.currentSettings)

/-- Typesets a character. Spaces are dropped in formulas. -/
def typeset (t : Token) (category : CharCategory) (c : Char) : Run Unit := do
  match category with
  | .superscript => script t .superscript
  | .subscript => script t .subscript
  | .alignmentTab => Run.emit .tab
  | .parameter => Run.recoverable (.parameterCharacter t c)
  | .space =>
    if (← get).scopes.currentSettings.isMath then return () else writeChar ' '
  | _ => writeChar c

/-- A math shift: ends the innermost group if it is a formula, and otherwise begins a formula. A
displayed formula begins and ends with two of them. -/
def mathShift (t : Token) : Run Unit := do
  let isShift (v : TokenValue) : Option Unit :=
    match v with
    | .char .mathShift _ => some ()
    | _ => none
  match (← get).scopes.groups.head?.map Group.kind with
  | some (.math true) =>
    match ← Stream.raw with
    | none => Run.fail (.displayMathEnd t)
    | some next =>
      if (isShift next.value).isSome then Run.endGroup (.math true) t
      else Run.fail (.displayMathEnd next)
  | some (.math false) => Run.endGroup (.math false) t
  | _ =>
    let second ← Stream.raw.take? isShift
    Run.beginGroup (.math second.isSome) t

end Gullet.Typesetting
