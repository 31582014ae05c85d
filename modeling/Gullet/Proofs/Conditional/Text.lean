import Gullet.Command
import Gullet.Reader.Number

/-!
# Texts with conditionals

The syntax of texts with properly nested conditionals, and what they evaluate to: the tokens of the
branches that are taken, in order. Nothing here refers to how conditionals are expanded.
-/

namespace Gullet

/-! ### Syntax -/

/-- A decimal constant: a minus sign or none, digits, and the space that ends it. -/
structure Constant where
  minus : Option Token
  digits : List (Fin 10 × SourceKey)
  blank : Token

mutual

/-- A text with conditionals. -/
inductive CondText where
  | nil
  /-- A token that belongs to no conditional. -/
  | token (t : Token) (rest : CondText)
  /-- A condition that holds or does not. -/
  | choice (opener : Token) (holds : Bool) (branch : CondText) (ending : Ending) (rest : CondText)
  /-- A switch. -/
  | switch (opener : Token) (constant : Constant) (cases : Cases) (rest : CondText)

/-- What follows the last branch before `\else`. -/
inductive Ending where
  /-- Only `\fi`. -/
  | close (closer : Token)
  /-- `\else`, the branch for all other cases, and `\fi`. -/
  | otherwise (divider : Token) (branch : CondText) (closer : Token)

/-- The cases of a switch, the first of which is chosen by zero. -/
inductive Cases where
  | last (branch : CondText) (ending : Ending)
  /-- A case that is followed by `\or`. -/
  | next (branch : CondText) (divider : Token) (rest : Cases)

end

namespace Constant

/-- The token of a digit. -/
def digitToken (d : Fin 10 × SourceKey) : Token := .char .other (Nat.digitChar d.1) d.2

/-- The tokens of a constant. -/
def tokens (c : Constant) : List Token := c.minus.toList ++ (c.digits.map digitToken ++ [c.blank])

/-- The number that the digits stand for. -/
def magnitude (c : Constant) : Nat := c.digits.foldl (fun n d => 10 * n + d.1) 0

/-- The number that the constant stands for. -/
def value (c : Constant) : Int := if c.minus.isSome then -c.magnitude else c.magnitude

/-- The constant is written as it should be. -/
structure WellFormed (c : Constant) : Prop where
  minus : ∀ t ∈ c.minus, t.value = .char .other '-'
  digits : c.digits ≠ []
  blank : c.blank.value.isSpace = true

end Constant

/-! ### Tokens -/

mutual

/-- The tokens of a text. -/
def CondText.tokens : CondText → List Token
  | .nil => []
  | .token t rest => t :: rest.tokens
  | .choice opener _ branch ending rest =>
    opener :: (branch.tokens ++ (ending.tokens ++ rest.tokens))
  | .switch opener constant cases rest =>
    opener :: (constant.tokens ++ (cases.tokens ++ rest.tokens))

/-- The tokens of an ending. -/
def Ending.tokens : Ending → List Token
  | .close closer => [closer]
  | .otherwise divider branch closer => divider :: (branch.tokens ++ [closer])

/-- The tokens of the cases. -/
def Cases.tokens : Cases → List Token
  | .last branch ending => branch.tokens ++ ending.tokens
  | .next branch divider rest => branch.tokens ++ divider :: rest.tokens

end

/-! ### Evaluation -/

mutual

/-- What a text evaluates to. -/
def CondText.value : CondText → List Token
  | .nil => []
  | .token t rest => t :: rest.value
  | .choice _ holds branch ending rest => (if holds then branch.value else ending.value) ++ rest.value
  | .switch _ constant cases rest => cases.value constant.value ++ rest.value

/-- What an ending evaluates to if no branch before it is taken. -/
def Ending.value : Ending → List Token
  | .close _ => []
  | .otherwise _ branch _ => branch.value

/-- What the cases evaluate to for a number. -/
def Cases.value : Cases → Int → List Token
  | .last branch ending, n => if n = 0 then branch.value else ending.value
  | .next branch _ rest, n => if n = 0 then branch.value else rest.value (n - 1)

end

/-- The token that ends a branch before the ending. -/
def Ending.first : Ending → Token
  | .close closer => closer
  | .otherwise divider _ _ => divider

mutual

/-- The commands that are expanded when a text is evaluated: the conditionals in branches that are
taken, and the tokens that end these branches. -/
def CondText.commands : CondText → List Token
  | .nil => []
  | .token _ rest => rest.commands
  | .choice opener holds branch ending rest =>
    opener :: ((if holds then branch.commands ++ [ending.first] else ending.commands) ++ rest.commands)
  | .switch opener constant cases rest => opener :: (cases.commands constant.value ++ rest.commands)

/-- The commands that are expanded in an ending if no branch before it is taken. -/
def Ending.commands : Ending → List Token
  | .close _ => []
  | .otherwise _ branch closer => branch.commands ++ [closer]

/-- The commands that are expanded in the cases for a number. -/
def Cases.commands : Cases → Int → List Token
  | .last branch ending, n => if n = 0 then branch.commands ++ [ending.first] else ending.commands
  | .next branch divider rest, n =>
    if n = 0 then branch.commands ++ [divider] else rest.commands (n - 1)

end

mutual

/-- The constants that are read when a text is evaluated. -/
def CondText.constants : CondText → List Constant
  | .nil => []
  | .token _ rest => rest.constants
  | .choice _ holds branch ending rest =>
    (if holds then branch.constants else ending.constants) ++ rest.constants
  | .switch _ constant cases rest => constant :: (cases.constants constant.value ++ rest.constants)

/-- The constants that are read in an ending if no branch before it is taken. -/
def Ending.constants : Ending → List Constant
  | .close _ => []
  | .otherwise _ branch _ => branch.constants

/-- The constants that are read in the cases for a number. -/
def Cases.constants : Cases → Int → List Constant
  | .last branch ending, n => if n = 0 then branch.constants else ending.constants
  | .next branch _ rest, n => if n = 0 then branch.constants else rest.constants (n - 1)

end

/-! ### Texts that mean what they say -/

namespace Bindings

/-- The token is a reference to the command. -/
def StandsFor (b : Bindings) (t : Token) (command : Command) : Prop :=
  ∃ ref, t.value = .command ref ∧ b.lookup ref = command

/-- The token belongs to no conditional. -/
def IsUnconditional (b : Bindings) (t : Token) : Prop :=
  ∀ tag ∈ b.tagOf? t, tag ≠ .conditional ∧ tag ≠ .elseBranch ∧ tag ≠ .nextCase ∧ tag ≠ .endIf

end Bindings

/-- The token is a character. -/
def Token.IsCharacter (t : Token) : Prop := ∃ category c, t.value = .char category c

mutual

/-- The commands of a text mean what they should. Where it is taken, all other tokens are characters;
elsewhere they may be any commands that belong to no conditional. -/
def CondText.WellFormed (b : Bindings) (taken : Bool) : CondText → Prop
  | .nil => True
  | .token t rest =>
    (t.IsCharacter ∨ taken = false ∧ b.IsUnconditional t) ∧ rest.WellFormed b taken
  | .choice opener holds branch ending rest =>
    b.StandsFor opener (.expansion (if holds then .ifTrue else .ifFalse)) ∧
      branch.WellFormed b (taken && holds) ∧ ending.WellFormed b (taken && !holds) ∧
      rest.WellFormed b taken
  | .switch opener constant cases rest =>
    b.StandsFor opener (.expansion .ifCase) ∧ constant.WellFormed ∧
      cases.WellFormed b taken constant.value ∧ rest.WellFormed b taken

/-- The same for an ending. -/
def Ending.WellFormed (b : Bindings) (taken : Bool) : Ending → Prop
  | .close closer => b.StandsFor closer (.expansion .endIf)
  | .otherwise divider branch closer =>
    b.StandsFor divider (.expansion .elseBranch) ∧ branch.WellFormed b taken ∧
      b.StandsFor closer (.expansion .endIf)

/-- The same for the cases, of which the number chooses one. -/
def Cases.WellFormed (b : Bindings) (taken : Bool) : Cases → Int → Prop
  | .last branch ending, n =>
    branch.WellFormed b (taken && n = 0) ∧ ending.WellFormed b (taken && n ≠ 0)
  | .next branch divider rest, n =>
    branch.WellFormed b (taken && n = 0) ∧ b.StandsFor divider (.expansion .nextCase) ∧
      rest.WellFormed b (taken && n ≠ 0) (n - 1)

end

mutual

/-- A text that could be taken can be skipped. -/
theorem CondText.WellFormed.skipped {b : Bindings} {taken : Bool} :
    ∀ {text : CondText}, text.WellFormed b taken → text.WellFormed b false
  | .nil, _ => trivial
  | .token t rest, h => by
    obtain ⟨ht, hrest⟩ := h
    refine ⟨?_, hrest.skipped⟩
    rcases ht with hchar | ⟨-, hunconditional⟩
    · exact .inl hchar
    · exact .inr ⟨rfl, hunconditional⟩
  | .choice _ _ _ _ _, h =>
    ⟨h.1, h.2.1.skipped, h.2.2.1.skipped, h.2.2.2.skipped⟩
  | .switch _ _ _ _, h => ⟨h.1, h.2.1, h.2.2.1.skipped, h.2.2.2.skipped⟩

theorem Ending.WellFormed.skipped {b : Bindings} {taken : Bool} :
    ∀ {ending : Ending}, ending.WellFormed b taken → ending.WellFormed b false
  | .close _, h => h
  | .otherwise _ _ _, h => ⟨h.1, h.2.1.skipped, h.2.2⟩

theorem Cases.WellFormed.skipped {b : Bindings} {taken : Bool} :
    ∀ {cases : Cases} {n : Int}, cases.WellFormed b taken n → cases.WellFormed b false n
  | .last _ _, _, h => ⟨h.1.skipped, h.2.skipped⟩
  | .next _ _ _, _, h => ⟨h.1.skipped, h.2.1, h.2.2.skipped⟩

end

end Gullet
