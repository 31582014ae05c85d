import Gullet.Proofs.Conditional.Evaluation

/-!
# Texts whose conditions are given

A text whose conditions are given, and whose constants each end with a space, is a text with tests that
evaluates to the same. So the expanded stream gives what it evaluates to.
-/

namespace Gullet

/-! ### Constants -/

namespace Constant

/-- The constant as a number that a space ends. -/
def numeral (c : Constant) : Numeral where
  signs := c.minus.toList
  digits := c.digits
  blank := some c.blank

variable {c : Constant}

theorem wellFormed_numeral (hc : c.WellFormed) : c.numeral.WellFormed where
  signs t ht := .inr (.inr (hc.minus t (Option.mem_toList.1 ht)))
  digits := hc.digits
  blank := by
    rintro t ⟨⟩
    exact hc.blank

theorem value_numeral (hc : c.WellFormed) : c.numeral.value = c.value := by
  have hsign : c.numeral.isNegative = c.minus.isSome := Reader.turn_minus hc.minus
  unfold Numeral.value value
  rw [hsign]
  rfl

end Constant

/-- A constant that is no word is refused. -/
theorem Reader.number_constant_error {x : Expander} {b : Bindings} {m m' : Machine} {c : Constant}
    (hc : c.WellFormed) (hgreat : 2147483647 < c.magnitude) (hm : m.Steady b)
    (h : Stream.raw.Supplies c.tokens m m') : ∃ f m₁, number x m = (.error (.failed f), m₁) :=
  number_numeral_error (Constant.wellFormed_numeral hc) hgreat hm h

/-! ### Texts -/

mutual

/-- The text as a text with tests. -/
def CondText.tested : CondText → TestText
  | .nil => .nil
  | .token t rest => .token t rest.tested
  | .choice opener holds branch ending rest =>
    .choice opener (.fixed holds) branch.tested ending.tested rest.tested
  | .switch opener constant cases rest => .switch opener constant.numeral cases.tested rest.tested

/-- The ending as that of a conditional with a test. -/
def Ending.tested : Ending → TestEnding
  | .close closer => .close closer
  | .otherwise divider branch closer => .otherwise divider branch.tested closer

/-- The cases as those of a switch in a text with tests. -/
def Cases.tested : Cases → TestCases
  | .last branch ending => .last branch.tested ending.tested
  | .next branch divider rest => .next branch.tested divider rest.tested

end

mutual

theorem CondText.tokens_tested : ∀ text : CondText, text.tested.tokens = text.tokens
  | .nil => rfl
  | .token t rest => congrArg (t :: ·) rest.tokens_tested
  | .choice opener holds branch ending rest => by
    simp [CondText.tested, CondText.tokens, TestText.tokens, Test.tokens, branch.tokens_tested, ending.tokens_tested,
      rest.tokens_tested]
  | .switch opener constant cases rest => by
    have hconstant : constant.numeral.tokens = constant.tokens := rfl
    simp [CondText.tested, CondText.tokens, TestText.tokens, hconstant, cases.tokens_tested, rest.tokens_tested]

theorem Ending.tokens_tested : ∀ ending : Ending, ending.tested.tokens = ending.tokens
  | .close closer => rfl
  | .otherwise divider branch closer => by
    simp [Ending.tested, Ending.tokens, TestEnding.tokens, branch.tokens_tested]

theorem Cases.tokens_tested : ∀ cases : Cases, cases.tested.tokens = cases.tokens
  | .last branch ending => by
    simp [Cases.tested, Cases.tokens, TestCases.tokens, branch.tokens_tested, ending.tokens_tested]
  | .next branch divider rest => by
    simp [Cases.tested, Cases.tokens, TestCases.tokens, branch.tokens_tested, rest.tokens_tested]

end

theorem Ending.first_tested (ending : Ending) : ending.tested.first = ending.first := by
  cases ending <;> rfl

mutual

theorem CondText.WellFormed.value_tested {b : Bindings} {taken : Bool} :
    ∀ {text : CondText}, text.WellFormed b taken → text.tested.value b = text.value
  | .nil, _ => rfl
  | .token t rest, h => congrArg (t :: ·) h.2.value_tested
  | .choice _ _ _ _ _, h => by
    obtain ⟨-, hbranch, hending, hrest⟩ := h
    simp [CondText.tested, TestText.value, CondText.value, Test.holds, hbranch.value_tested,
      hending.value_tested, hrest.value_tested]
  | .switch _ _ _ _, h => by
    obtain ⟨-, hconstant, hcases, hrest⟩ := h
    simp [CondText.tested, TestText.value, CondText.value, Constant.value_numeral hconstant,
      hcases.value_tested, hrest.value_tested]

theorem Ending.WellFormed.value_tested {b : Bindings} {taken : Bool} :
    ∀ {ending : Ending}, ending.WellFormed b taken → ending.tested.value b = ending.value
  | .close _, _ => rfl
  | .otherwise _ _ _, h => h.2.1.value_tested

theorem Cases.WellFormed.value_tested {b : Bindings} {taken : Bool} :
    ∀ {cases : Cases} {n k : Int}, cases.WellFormed b taken n → cases.tested.value b k = cases.value k
  | .last _ _, n, k, h => by
    simp [Cases.tested, TestCases.value, Cases.value, h.1.value_tested, h.2.value_tested]
  | .next _ _ _, n, k, h => by
    simp [Cases.tested, TestCases.value, Cases.value, h.1.value_tested, h.2.2.value_tested]

end

mutual

theorem CondText.WellFormed.commands_tested {b : Bindings} {taken : Bool} :
    ∀ {text : CondText}, text.WellFormed b taken → text.tested.commands b = text.commands
  | .nil, _ => rfl
  | .token _ _, h => h.2.commands_tested
  | .choice _ _ _ _ _, h => by
    obtain ⟨-, hbranch, hending, hrest⟩ := h
    simp [CondText.tested, TestText.commands, CondText.commands, Test.holds, Ending.first_tested,
      hbranch.commands_tested, hending.commands_tested, hrest.commands_tested]
  | .switch _ _ _ _, h => by
    obtain ⟨-, hconstant, hcases, hrest⟩ := h
    simp [CondText.tested, TestText.commands, CondText.commands, Constant.value_numeral hconstant,
      hcases.commands_tested, hrest.commands_tested]

theorem Ending.WellFormed.commands_tested {b : Bindings} {taken : Bool} :
    ∀ {ending : Ending}, ending.WellFormed b taken → ending.tested.commands b = ending.commands
  | .close _, _ => rfl
  | .otherwise _ _ closer, h => congrArg (· ++ [closer]) h.2.1.commands_tested

theorem Cases.WellFormed.commands_tested {b : Bindings} {taken : Bool} :
    ∀ {cases : Cases} {n k : Int}, cases.WellFormed b taken n →
      cases.tested.commands b k = cases.commands k
  | .last _ _, n, k, h => by
    simp [Cases.tested, TestCases.commands, Cases.commands, Ending.first_tested,
      h.1.commands_tested, h.2.commands_tested]
  | .next _ _ _, n, k, h => by
    simp [Cases.tested, TestCases.commands, Cases.commands, h.1.commands_tested,
      h.2.2.commands_tested]

end

mutual

theorem CondText.WellFormed.numerals_tested {b : Bindings} {taken : Bool} :
    ∀ {text : CondText}, text.WellFormed b taken →
      text.tested.numerals b = text.constants.map Constant.numeral
  | .nil, _ => rfl
  | .token _ _, h => h.2.numerals_tested
  | .choice _ holds _ _ _, h => by
    obtain ⟨-, hbranch, hending, hrest⟩ := h
    cases holds <;>
      simp [CondText.tested, TestText.numerals, CondText.constants, Test.holds, Test.numerals,
        hbranch.numerals_tested, hending.numerals_tested, hrest.numerals_tested]
  | .switch _ _ _ _, h => by
    obtain ⟨-, hconstant, hcases, hrest⟩ := h
    simp [CondText.tested, TestText.numerals, CondText.constants, Constant.value_numeral hconstant,
      hcases.numerals_tested, hrest.numerals_tested]

theorem Ending.WellFormed.numerals_tested {b : Bindings} {taken : Bool} :
    ∀ {ending : Ending}, ending.WellFormed b taken →
      ending.tested.numerals b = ending.constants.map Constant.numeral
  | .close _, _ => rfl
  | .otherwise _ _ _, h => h.2.1.numerals_tested

theorem Cases.WellFormed.numerals_tested {b : Bindings} {taken : Bool} :
    ∀ {cases : Cases} {n k : Int}, cases.WellFormed b taken n →
      cases.tested.numerals b k = (cases.constants k).map Constant.numeral
  | .last _ _, n, k, h => by
    by_cases hk : k = 0 <;>
      simp [Cases.tested, TestCases.numerals, Cases.constants, hk, h.1.numerals_tested,
        h.2.numerals_tested]
  | .next _ _ _, n, k, h => by
    by_cases hk : k = 0 <;>
      simp [Cases.tested, TestCases.numerals, Cases.constants, hk, h.1.numerals_tested,
        h.2.2.numerals_tested]

end

mutual

/-- No number in the text is open, so what follows a number does not matter. -/
theorem CondText.WellFormed.tested {b : Bindings} {taken : Bool} :
    ∀ {text : CondText}, text.WellFormed b taken → text.tested.WellFormed b taken
  | .nil, _ => trivial
  | .token _ _, h => ⟨h.1, h.2.tested⟩
  | .choice _ _ _ _ _, h =>
    ⟨h.1, trivial, nofun, h.2.1.tested, h.2.2.1.tested, h.2.2.2.tested⟩
  | .switch _ constant _ _, h => by
    obtain ⟨hopener, hconstant, hcases, hrest⟩ := h
    refine ⟨hopener, Constant.wellFormed_numeral hconstant, nofun, ?_, hrest.tested⟩
    rw [Constant.value_numeral hconstant]
    exact hcases.tested

theorem Ending.WellFormed.tested {b : Bindings} {taken : Bool} :
    ∀ {ending : Ending}, ending.WellFormed b taken → ending.tested.WellFormed b taken
  | .close _, h => h
  | .otherwise _ _ _, h => ⟨h.1, h.2.1.tested, h.2.2⟩

theorem Cases.WellFormed.tested {b : Bindings} {taken : Bool} :
    ∀ {cases : Cases} {n : Int}, cases.WellFormed b taken n → cases.tested.WellFormed b taken n
  | .last _ _, _, h => ⟨h.1.tested, h.2.tested⟩
  | .next _ _ _, _, h => ⟨h.1.tested, h.2.1, h.2.2.tested⟩

end

/-- A text that is taken is given as what it evaluates to. -/
theorem Conditional.yields_text {x : Expander} {b : Bindings} {text : CondText} {m m' : Machine}
    (hwell : text.WellFormed b true)
    (ha : m.Expansive b ∧ (∀ t ∈ text.commands, x t = expand t) ∧
      (∀ c ∈ text.constants, c.magnitude ≤ 2147483647) ∧
      m.expansions + text.commands.length ≤ m.config.maxExpansions)
    (h : Stream.raw.Supplies text.tokens m m') :
    (Stream.expanded x).Yields text.value m (m'.counting text.commands.length) := by
  obtain ⟨hm, hx, hwords, hroom⟩ := ha
  have hnumerals : ∀ n ∈ text.tested.numerals b, n.magnitude ≤ 2147483647 := by
    rw [hwell.numerals_tested]
    intro n hn
    obtain ⟨c, hc, rfl⟩ := List.mem_map.1 hn
    exact hwords c hc
  rw [← hwell.commands_tested] at hx hroom ⊢
  rw [← hwell.value_tested]
  rw [← text.tokens_tested] at h
  exact yields_tested hwell.tested ⟨hm, hx, hnumerals, hroom⟩ h

end Gullet
