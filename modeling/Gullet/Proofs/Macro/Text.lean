import Gullet.Execution.Definition
import Gullet.Proofs.Macro.Braces
import Gullet.Proofs.Macro.Delimiters

/-!
# Definitions and calls as they are written

The text of a definition: the tokens that must follow the name, the parameters with their delimiters, and
the replacement text. The text of a call: the same tokens, and an argument for each parameter. What the
call stands for is the replacement text with the arguments in place of the parameters. Nothing here
refers to how definitions and calls are read.
-/

namespace Gullet

/-! ### Definitions -/

/-- A parameter in a definition: a parameter token and a digit, and the delimiter, which is empty for an
undelimited parameter. -/
structure Slot where
  mark : Token
  digit : Token
  delimiter : List Token

namespace Slot

/-- The tokens of a parameter. -/
def tokens (s : Slot) : List Token := s.mark :: s.digit :: s.delimiter

/-- The values of the delimiter. -/
def delimiterValues (s : Slot) : List TokenValue := s.delimiter.map Token.value

/-- The parameter is written as the one with the given index. -/
structure WellFormed (s : Slot) (index : Nat) : Prop where
  mark : ∃ c, s.mark.value = .char .parameter c
  digit : ∃ category c, s.digit.value = .char category c ∧ category ≠ .beginGroup ∧
    parameterIndex? c = some index
  delimiter : ∀ t ∈ s.delimiter, t.IsOrdinary

/-- The parameters are numbered in their order, from the given index on. -/
def Numbered : Nat → List Slot → Prop
  | _, [] => True
  | n, s :: rest => s.WellFormed n ∧ Numbered (n + 1) rest

theorem ordinary_of_numbered {n : Nat} {slots : List Slot} (h : Numbered n slots) :
    ∀ s ∈ slots, ∀ t ∈ s.delimiter, t.IsOrdinary := by
  induction slots generalizing n with
  | nil => exact fun s hs => absurd hs List.not_mem_nil
  | cons s slots ih => exact List.forall_mem_cons.2 ⟨h.1.delimiter, ih h.2⟩

end Slot

/-- A piece of a replacement text. -/
inductive BodyItem where
  | token (t : Token)
  /-- A parameter token and the digit of a parameter. -/
  | parameter (mark digit : Token) (index : Nat)
  /-- Two parameter tokens, which stand for the second one. -/
  | doubled (mark kept : Token)

namespace BodyItem

/-- The tokens of a piece. -/
def tokens : BodyItem → List Token
  | token t => [t]
  | parameter mark digit _ => [mark, digit]
  | doubled mark kept => [mark, kept]

/-- The piece is written as it should be, and refers to one of `count` parameters if to any. -/
def WellFormed (count : Nat) : BodyItem → Prop
  | token t => ∀ c, t.value ≠ .char .parameter c
  | parameter mark digit index =>
    (∃ c, mark.value = .char .parameter c) ∧
      (∃ category c, digit.value = .char category c ∧ category ≠ .parameter ∧
        parameterIndex? c = some index) ∧ index < count
  | doubled mark kept => (∃ c, mark.value = .char .parameter c) ∧ ∃ c, kept.value = .char .parameter c

/-- What the piece stands for. -/
def filled (arguments : List (List Token)) : BodyItem → List Token
  | token t => [t]
  | parameter _ _ index => (arguments[index]?).getD []
  | doubled _ kept => [kept]

end BodyItem

/-- The text of a definition after the name. -/
structure DefinitionText where
  lead : List Token
  slots : List Slot
  opener : Token
  body : List BodyItem
  closer : Token

namespace DefinitionText

/-- The tokens of a replacement text. -/
def bodyTokens (d : DefinitionText) : List Token := d.body.flatMap BodyItem.tokens

/-- The tokens of a definition after the name. -/
def tokens (d : DefinitionText) : List Token :=
  d.lead ++ (d.slots.flatMap Slot.tokens ++ d.opener :: (d.bodyTokens ++ [d.closer]))

/-- The definition is written as it should be. -/
structure WellFormed (d : DefinitionText) : Prop where
  lead : ∀ t ∈ d.lead, t.IsOrdinary
  slots : Slot.Numbered 0 d.slots
  opener : d.opener.value.isBeginGroup = true
  body : ∀ item ∈ d.body, item.WellFormed d.slots.length
  balanced : Token.Balanced d.bodyTokens
  closer : d.closer.value.isEndGroup = true

/-- The replacement text with arguments in place of the parameters. -/
def filled (d : DefinitionText) (arguments : List (List Token)) : List Token :=
  d.body.flatMap (BodyItem.filled arguments)

end DefinitionText

/-! ### Calls -/

/-- The tokens are the argument of a parameter as it is written: in braces if the parameter is
undelimited, and else followed by the delimiter, which does not occur outside braces before. -/
inductive Slot.Written (s : Slot) : List Token → List Token → Prop where
  | group {opener closer : Token} {argument : List Token} (hs : s.delimiter = [])
      (ho : opener.value.isBeginGroup = true) (hc : closer.value.isEndGroup = true)
      (hbalanced : Token.Balanced argument) : s.Written argument (opener :: (argument ++ [closer]))
  | delimited {argument delimiter : List Token} (hs : s.delimiter ≠ [])
      (hdelimiter : delimiter.map Token.value = s.delimiterValues)
      (hbalanced : Token.Balanced argument) (hgroup : ¬ Token.IsGroup argument)
      (hfirst : ∀ us, us <+: argument ++ delimiter → s.delimiterValues <:+ us.map Token.value →
        Token.depth us = 0 → us = argument ++ delimiter) :
      s.Written argument (argument ++ delimiter)

/-- The tokens are the arguments of all parameters as they are written. -/
inductive Slot.AllWritten : List Slot → List (List Token) → List Token → Prop where
  | nil : AllWritten [] [] []
  | cons {s : Slot} {slots : List Slot} {argument tokens rest : List Token}
      {arguments : List (List Token)} (h : s.Written argument tokens)
      (hrest : AllWritten slots arguments rest) :
      AllWritten (s :: slots) (argument :: arguments) (tokens ++ rest)

end Gullet
