import Gullet.Proofs.Conditional.Text

/-!
# Texts with tests

The syntax of texts with properly nested conditionals that test something, and what they evaluate to. A
test that ends with a number may be followed by its branch at once. The token after the digits is then
looked at to find the end of the number, so it must be a character that is neither a digit nor a space.
-/

namespace Gullet

/-! ### Syntax -/

/-- A decimal number: signs, digits, and the space that ends it, if there is one. -/
structure Numeral where
  signs : List Token
  digits : List (Fin 10 × SourceKey)
  blank : Option Token

/-- What a conditional tests. -/
inductive Test where
  /-- Nothing: the condition holds or does not. -/
  | fixed (holds : Bool)
  /-- How two numbers compare. -/
  | compare (a : Numeral) (relation : Ordering × SourceKey) (b : Numeral)
  /-- Whether a number is odd. -/
  | odd (n : Numeral)
  /-- Whether two tokens have the same meaning. -/
  | same (first second : Token)
  /-- Whether a token stands for something. -/
  | defined (t : Token)

mutual

/-- A text with conditionals that test something. -/
inductive TestText where
  | nil
  /-- A token that belongs to no conditional. -/
  | token (t : Token) (rest : TestText)
  /-- A conditional with a test. -/
  | choice (opener : Token) (test : Test) (branch : TestText) (ending : TestEnding) (rest : TestText)
  /-- A switch. -/
  | switch (opener : Token) (number : Numeral) (cases : TestCases) (rest : TestText)

/-- What follows the last branch before `\else`. -/
inductive TestEnding where
  /-- Only `\fi`. -/
  | close (closer : Token)
  /-- `\else`, the branch for all other cases, and `\fi`. -/
  | otherwise (divider : Token) (branch : TestText) (closer : Token)

/-- The cases of a switch, the first of which is chosen by zero. -/
inductive TestCases where
  | last (branch : TestText) (ending : TestEnding)
  /-- A case that is followed by `\or`. -/
  | next (branch : TestText) (divider : Token) (rest : TestCases)

end

/-! ### Numbers and tests -/

namespace Token

/-- The token is a sign. Spaces count as signs. -/
def IsSign (t : Token) : Prop :=
  t.value.isSpace = true ∨ t.value = .char .other '+' ∨ t.value = .char .other '-'

/-- The token is a minus sign. -/
def isMinus (t : Token) : Bool := t.value = .char .other '-'

/-- The sign of a number after more signs: each minus sign turns it round. -/
def turn (negative : Bool) (ts : List Token) : Bool :=
  ts.foldl (fun negative t => negative != t.isMinus) negative

end Token

namespace Numeral

/-- The tokens of a number. -/
def tokens (n : Numeral) : List Token :=
  n.signs ++ (n.digits.map Constant.digitToken ++ n.blank.toList)

/-- The number that the digits stand for. -/
def magnitude (n : Numeral) : Nat := n.digits.foldl (fun n d => 10 * n + d.1) 0

/-- Whether the number of minus signs is odd. -/
def isNegative (n : Numeral) : Bool := Token.turn false n.signs

/-- The number that the signs and digits stand for. -/
def value (n : Numeral) : Int := if n.isNegative then -n.magnitude else n.magnitude

/-- No space ends the number, so what follows it is looked at. -/
def isOpen (n : Numeral) : Bool := n.blank.isNone

/-- The number is written as it should be. -/
structure WellFormed (n : Numeral) : Prop where
  signs : ∀ t ∈ n.signs, t.IsSign
  digits : n.digits ≠ []
  blank : ∀ t ∈ n.blank, t.value.isSpace = true

end Numeral

namespace Test

/-- The token of a relation. -/
def relationToken (relation : Ordering × SourceKey) : Token :=
  match relation.1 with
  | .lt => .char .other '<' relation.2
  | .eq => .char .other '=' relation.2
  | .gt => .char .other '>' relation.2

/-- The primitive that makes the test. -/
def primitive : Test → ExpansionPrimitive
  | fixed holds => if holds then .ifTrue else .ifFalse
  | compare _ _ _ => .ifNum
  | odd _ => .ifOdd
  | same _ _ => .ifSame
  | defined _ => .ifDefined

theorem tag?_primitive (test : Test) : test.primitive.tag? = some .conditional := by
  cases test with
  | fixed holds => cases holds <;> rfl
  | _ => rfl

/-- The tokens that the test reads. -/
def tokens : Test → List Token
  | fixed _ => []
  | compare a relation b => a.tokens ++ relationToken relation :: b.tokens
  | odd n => n.tokens
  | same first second => [first, second]
  | defined t => [t]

/-- Whether the condition holds. -/
def holds (bindings : Bindings) : Test → Bool
  | fixed holds => holds
  | compare a relation b => Ord.compare a.value b.value = relation.1
  | odd n => n.value % 2 ≠ 0
  | same first second =>
    (bindings.meaningOf first.value).sameMeaning (bindings.meaningOf second.value)
  | defined t => (bindings.meaningOf t.value).isDefined

/-- The numbers that the test reads. -/
def numerals : Test → List Numeral
  | compare a _ b => [a, b]
  | odd n => [n]
  | _ => []

/-- The test ends with a number that no space ends. -/
def isOpen : Test → Bool
  | compare _ _ b => b.isOpen
  | odd n => n.isOpen
  | _ => false

end Test

/-! ### Tokens -/

mutual

/-- The tokens of a text. -/
def TestText.tokens : TestText → List Token
  | .nil => []
  | .token t rest => t :: rest.tokens
  | .choice opener test branch ending rest =>
    opener :: (test.tokens ++ (branch.tokens ++ (ending.tokens ++ rest.tokens)))
  | .switch opener number cases rest =>
    opener :: (number.tokens ++ (cases.tokens ++ rest.tokens))

/-- The tokens of an ending. -/
def TestEnding.tokens : TestEnding → List Token
  | .close closer => [closer]
  | .otherwise divider branch closer => divider :: (branch.tokens ++ [closer])

/-- The tokens of the cases. -/
def TestCases.tokens : TestCases → List Token
  | .last branch ending => branch.tokens ++ ending.tokens
  | .next branch divider rest => branch.tokens ++ divider :: rest.tokens

end

/-! ### Evaluation -/

mutual

/-- What a text evaluates to under the bindings. -/
def TestText.value (b : Bindings) : TestText → List Token
  | .nil => []
  | .token t rest => t :: rest.value b
  | .choice _ test branch ending rest =>
    (if test.holds b then branch.value b else ending.value b) ++ rest.value b
  | .switch _ number cases rest => cases.value b number.value ++ rest.value b

/-- What an ending evaluates to if no branch before it is taken. -/
def TestEnding.value (b : Bindings) : TestEnding → List Token
  | .close _ => []
  | .otherwise _ branch _ => branch.value b

/-- What the cases evaluate to for a number. -/
def TestCases.value (b : Bindings) : TestCases → Int → List Token
  | .last branch ending, n => if n = 0 then branch.value b else ending.value b
  | .next branch _ rest, n => if n = 0 then branch.value b else rest.value b (n - 1)

end

/-- The token that ends a branch before the ending. -/
def TestEnding.first : TestEnding → Token
  | .close closer => closer
  | .otherwise divider _ _ => divider

mutual

/-- The commands that are expanded when a text is evaluated: the conditionals in branches that are
taken, and the tokens that end these branches. -/
def TestText.commands (b : Bindings) : TestText → List Token
  | .nil => []
  | .token _ rest => rest.commands b
  | .choice opener test branch ending rest =>
    opener ::
      ((if test.holds b then branch.commands b ++ [ending.first] else ending.commands b) ++
        rest.commands b)
  | .switch opener number cases rest => opener :: (cases.commands b number.value ++ rest.commands b)

/-- The commands that are expanded in an ending if no branch before it is taken. -/
def TestEnding.commands (b : Bindings) : TestEnding → List Token
  | .close _ => []
  | .otherwise _ branch closer => branch.commands b ++ [closer]

/-- The commands that are expanded in the cases for a number. -/
def TestCases.commands (b : Bindings) : TestCases → Int → List Token
  | .last branch ending, n => if n = 0 then branch.commands b ++ [ending.first] else ending.commands b
  | .next branch divider rest, n =>
    if n = 0 then branch.commands b ++ [divider] else rest.commands b (n - 1)

end

mutual

/-- The numbers that are read when a text is evaluated. -/
def TestText.numerals (b : Bindings) : TestText → List Numeral
  | .nil => []
  | .token _ rest => rest.numerals b
  | .choice _ test branch ending rest =>
    test.numerals ++
      ((if test.holds b then branch.numerals b else ending.numerals b) ++ rest.numerals b)
  | .switch _ number cases rest => number :: (cases.numerals b number.value ++ rest.numerals b)

/-- The numbers that are read in an ending if no branch before it is taken. -/
def TestEnding.numerals (b : Bindings) : TestEnding → List Numeral
  | .close _ => []
  | .otherwise _ branch _ => branch.numerals b

/-- The numbers that are read in the cases for a number. -/
def TestCases.numerals (b : Bindings) : TestCases → Int → List Numeral
  | .last branch ending, n => if n = 0 then branch.numerals b else ending.numerals b
  | .next branch _ rest, n => if n = 0 then branch.numerals b else rest.numerals b (n - 1)

end

/-! ### Texts that mean what they say -/

namespace Token

/-- The token is a character that neither goes on with a number nor ends it as a space does. -/
def IsPlain (t : Token) : Prop :=
  ∃ category c, t.value = .char category c ∧ t.value.isSpace = false ∧
    Reader.digit? .decimal t.value = none

end Token

/-- The text starts with a character that is neither a digit nor a space. -/
def TestText.StartsPlain : TestText → Prop
  | .token t _ => t.IsPlain
  | _ => False

/-- The first case does. -/
def TestCases.StartsPlain : TestCases → Prop
  | .last branch _ => branch.StartsPlain
  | .next branch _ _ => branch.StartsPlain

/-- The token is passed over when a branch is skipped. -/
def Bindings.PassesOver (b : Bindings) (t : Token) : Prop := t.IsCharacter ∨ b.IsUnconditional t

/-- The test is written as it should be. The tokens whose meanings it looks at belong to no
conditional. -/
def Test.WellFormed (bindings : Bindings) : Test → Prop
  | fixed _ => True
  | compare a _ b => a.WellFormed ∧ b.WellFormed
  | odd n => n.WellFormed
  | same first second => bindings.PassesOver first ∧ bindings.PassesOver second
  | defined t => bindings.PassesOver t

mutual

/-- The commands of a text mean what they should. Where it is taken, all other tokens are characters,
and what follows an open number does not go on with it; elsewhere the other tokens may be any commands
that belong to no conditional. -/
def TestText.WellFormed (b : Bindings) (taken : Bool) : TestText → Prop
  | .nil => True
  | .token t rest =>
    (t.IsCharacter ∨ taken = false ∧ b.IsUnconditional t) ∧ rest.WellFormed b taken
  | .choice opener test branch ending rest =>
    b.StandsFor opener (.expansion test.primitive) ∧ test.WellFormed b ∧
      (taken = true → test.isOpen = true → branch.StartsPlain) ∧
      branch.WellFormed b (taken && test.holds b) ∧
      ending.WellFormed b (taken && !test.holds b) ∧ rest.WellFormed b taken
  | .switch opener number cases rest =>
    b.StandsFor opener (.expansion .ifCase) ∧ number.WellFormed ∧
      (taken = true → number.isOpen = true → cases.StartsPlain) ∧
      cases.WellFormed b taken number.value ∧ rest.WellFormed b taken

/-- The same for an ending. -/
def TestEnding.WellFormed (b : Bindings) (taken : Bool) : TestEnding → Prop
  | .close closer => b.StandsFor closer (.expansion .endIf)
  | .otherwise divider branch closer =>
    b.StandsFor divider (.expansion .elseBranch) ∧ branch.WellFormed b taken ∧
      b.StandsFor closer (.expansion .endIf)

/-- The same for the cases, of which the number chooses one. -/
def TestCases.WellFormed (b : Bindings) (taken : Bool) : TestCases → Int → Prop
  | .last branch ending, n =>
    branch.WellFormed b (taken && n = 0) ∧ ending.WellFormed b (taken && n ≠ 0)
  | .next branch divider rest, n =>
    branch.WellFormed b (taken && n = 0) ∧ b.StandsFor divider (.expansion .nextCase) ∧
      rest.WellFormed b (taken && n ≠ 0) (n - 1)

end

mutual

/-- A text that could be taken can be skipped. -/
theorem TestText.WellFormed.skipped {b : Bindings} {taken : Bool} :
    ∀ {text : TestText}, text.WellFormed b taken → text.WellFormed b false
  | .nil, _ => trivial
  | .token t rest, h => by
    obtain ⟨ht, hrest⟩ := h
    refine ⟨?_, hrest.skipped⟩
    rcases ht with hchar | ⟨-, hunconditional⟩
    · exact .inl hchar
    · exact .inr ⟨rfl, hunconditional⟩
  | .choice _ _ _ _ _, h => by
    obtain ⟨hopener, htest, -, hbranch, hending, hrest⟩ := h
    exact ⟨hopener, htest, nofun, hbranch.skipped, hending.skipped, hrest.skipped⟩
  | .switch _ _ _ _, h => by
    obtain ⟨hopener, hnumber, -, hcases, hrest⟩ := h
    exact ⟨hopener, hnumber, nofun, hcases.skipped, hrest.skipped⟩

theorem TestEnding.WellFormed.skipped {b : Bindings} {taken : Bool} :
    ∀ {ending : TestEnding}, ending.WellFormed b taken → ending.WellFormed b false
  | .close _, h => h
  | .otherwise _ _ _, h => ⟨h.1, h.2.1.skipped, h.2.2⟩

theorem TestCases.WellFormed.skipped {b : Bindings} {taken : Bool} :
    ∀ {cases : TestCases} {n : Int}, cases.WellFormed b taken n → cases.WellFormed b false n
  | .last _ _, _, h => ⟨h.1.skipped, h.2.skipped⟩
  | .next _ _ _, _, h => ⟨h.1.skipped, h.2.1, h.2.2.skipped⟩

end

/-! ### Tokens of well-formed tests -/

theorem Token.IsSign.isCharacter {t : Token} (ht : t.IsSign) : t.IsCharacter := by
  rcases ht with hspace | hplus | hminus
  · exact ⟨_, TokenValue.eq_space hspace⟩
  · exact ⟨_, _, hplus⟩
  · exact ⟨_, _, hminus⟩

theorem Numeral.isCharacter_of_mem {n : Numeral} (hn : n.WellFormed) :
    ∀ t ∈ n.tokens, t.IsCharacter := by
  intro t ht
  rcases List.mem_append.1 ht with hsign | ht
  · exact (hn.signs t hsign).isCharacter
  · rcases List.mem_append.1 ht with hdigit | hblank
    · obtain ⟨d, -, rfl⟩ := List.mem_map.1 hdigit
      exact ⟨_, _, rfl⟩
    · exact ⟨_, TokenValue.eq_space (hn.blank t (Option.mem_toList.1 hblank))⟩

theorem Test.relationToken_isCharacter (relation : Ordering × SourceKey) :
    (relationToken relation).IsCharacter := by
  obtain ⟨o, key⟩ := relation
  cases o <;> exact ⟨_, _, rfl⟩

/-- The tokens of a test are passed over when the conditional is skipped. -/
theorem Test.passesOver_of_mem {bindings : Bindings} {test : Test} (h : test.WellFormed bindings) :
    ∀ t ∈ test.tokens, bindings.PassesOver t := by
  intro t ht
  cases test with
  | fixed holds => cases ht
  | compare a relation b =>
    obtain ⟨ha, hb⟩ := h
    rcases List.mem_append.1 ht with hmem | ht
    · exact .inl (Numeral.isCharacter_of_mem ha t hmem)
    · rcases List.mem_cons.1 ht with rfl | hmem
      · exact .inl (relationToken_isCharacter relation)
      · exact .inl (Numeral.isCharacter_of_mem hb t hmem)
  | odd n => exact .inl (Numeral.isCharacter_of_mem h t ht)
  | same first second =>
    rcases List.mem_cons.1 ht with rfl | ht
    · exact h.1
    · obtain rfl := List.mem_singleton.1 ht
      exact h.2
  | defined t' =>
    obtain rfl := List.mem_singleton.1 ht
    exact h

/-! ### What follows an open number -/

/-- What comes after an open number is plain if the text that comes next starts so. -/
theorem TestText.StartsPlain.isPlain {text : TestText} {t : Token} {us ts : List Token}
    (h : text.StartsPlain) (hts : text.tokens ++ us = t :: ts) : t.IsPlain := by
  cases text with
  | token t' rest =>
    obtain rfl := List.head_eq_of_cons_eq hts
    exact h
  | _ => exact h.elim

theorem TestCases.StartsPlain.isPlain {cases : TestCases} {t : Token} {us ts : List Token}
    (h : cases.StartsPlain) (hts : cases.tokens ++ us = t :: ts) : t.IsPlain := by
  cases cases with
  | last branch ending =>
    rw [TestCases.tokens, List.append_assoc] at hts
    exact TestText.StartsPlain.isPlain h hts
  | next branch divider rest =>
    rw [TestCases.tokens, List.append_assoc] at hts
    exact TestText.StartsPlain.isPlain h hts

theorem TestEnding.tokens_ne_nil (ending : TestEnding) : ending.tokens ≠ [] := by
  cases ending <;> exact List.cons_ne_nil _ _

theorem TestCases.tokens_ne_nil (cases : TestCases) : cases.tokens ≠ [] := by
  cases cases with
  | last branch ending =>
    exact List.append_ne_nil_of_right_ne_nil _ ending.tokens_ne_nil
  | next branch divider rest =>
    exact List.append_ne_nil_of_right_ne_nil _ (List.cons_ne_nil _ _)

end Gullet
