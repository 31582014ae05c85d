import Gullet.Proofs.Conditional.Embedding
import Gullet.Proofs.Scopes.Vocabulary

/-!
# What texts with conditionals expand to

A text with conditionals expands to what it evaluates to, as long as the constants that are read are
words. The digits of a greater constant are refused, so such a text does not expand to anything.
-/

namespace Gullet

namespace Conditional

/-- **Conditionals expand to what they evaluate to.** The expanded stream gives the characters that the
text evaluates to, and then what follows the text. The expander has to expand only the conditionals in
branches that are taken and the tokens that end these branches, and expands each of them once. The
branches that are open after the text are those that were open before it. -/
theorem expanded_text {x : Expander} {text : CondText} {m m' : Machine}
    (hm : m.Expansive m.scopes.bindings) (hwell : text.WellFormed m.scopes.bindings true)
    (hwords : ∀ c ∈ text.constants, c.magnitude ≤ 2147483647)
    (hroom : m.expansions + text.commands.length ≤ m.config.maxExpansions)
    (hx : ∀ t ∈ text.commands, x t = expand t) (h : Stream.raw.Supplies text.tokens m m') :
    (Stream.expanded x).Yields text.value m (m'.counting text.commands.length) ∧
      (m'.counting text.commands.length).branches = m.branches := by
  refine ⟨yields_text hwell ⟨hm, hx, hwords, hroom⟩ h, ?_⟩
  rw [Run.eq_of_supplies h]
  rfl

/-- The constant of a switch has to be a word. -/
theorem expanded_great_constant {opener : Token} {c : Constant} {m m₁ m₂ : Machine}
    (hm : m.Expansive m.scopes.bindings)
    (hopener : m.scopes.bindings.StandsFor opener (.expansion .ifCase)) (hc : c.WellFormed)
    (hgreat : 2147483647 < c.magnitude) (hroom : m.expansions < m.config.maxExpansions)
    (ht : Stream.raw m = (.ok (some opener), m₁)) (hconstant : Stream.raw.Supplies c.tokens m₁ m₂) :
    ∃ d m', Stream.main m = (.error (.failed d), m') := by
  have haside := Machine.aside_deepened.comp (Machine.aside_counting 1)
  obtain ⟨d, m₃, hnumber⟩ := Reader.number_constant_error
    (x := Expansion.expandWithin m₁.config.maxExpansionDepth) hc hgreat
    ((hm.raw ht).counting 1).deepened (haside.supplies hconstant)
  have hprimitive : Expansion.primitive (Expansion.expandWithin m₁.config.maxExpansionDepth) opener
      .ifCase (m₁.counting 1).deepened = (.error (.failed d), m₃) :=
    Run.bind_of_error (Run.bind_of_error hnumber)
  exact expanded_of_primitive_error hm ht hopener rfl hroom hprimitive

/-! ### Samples -/

theorem expansive_ready (ts : List Token) :
    (Machine.ready.push ts).Expansive Machine.ready.scopes.bindings where
  bindings := rfl
  accounted := Machine.accounted_ready ts
  expanding := by
    intro mode h
    cases h
  depth := Nat.zero_lt_succ _

theorem standsFor_named {name : String} {command : Command}
    (h : (vocabulary.find? fun b => b.name = name).map (fun b => b.command) = some command) :
    Machine.ready.scopes.bindings.StandsFor (Token.named name) command :=
  ⟨_, rfl, Machine.lookup_standard_of_find? h⟩

/-- The text `\ifcase 1 a\or b\iffalse c\else d\fi\else e\fi`. -/
def nested : CondText :=
  .switch (.named "ifcase") { minus := none, digits := [(1, none)], blank := .char .space ' ' none }
    (.next (.token (.char .letter 'a' none) .nil) (.named "or")
      (.last
        (.token (.char .letter 'b' none)
          (.choice (.named "iffalse") false (.token (.char .letter 'c' none) .nil)
            (.otherwise (.named "else") (.token (.char .letter 'd' none) .nil) (.named "fi")) .nil))
        (.otherwise (.named "else") (.token (.char .letter 'e' none) .nil) (.named "fi"))))
    .nil

/-- The second case is taken, and the branch for the other case in it. -/
theorem expanded_nested :
    Stream.main.Yields [.char .letter 'b' none, .char .letter 'd' none]
        (Machine.ready.push nested.tokens) (Machine.ready.counting 4) ∧
      (Machine.ready.counting 4).branches = [] := by
  have hchar (c : Char) : (Token.char .letter c none).IsCharacter := ⟨_, _, rfl⟩
  have hwell : nested.WellFormed Machine.ready.scopes.bindings true := by
    refine ⟨standsFor_named (by cbv), ⟨by simp, by simp, rfl⟩, ⟨⟨.inl (hchar 'a'), trivial⟩,
      standsFor_named (by cbv), ⟨⟨.inl (hchar 'b'), ?_⟩, ?_⟩⟩, trivial⟩
    · exact ⟨standsFor_named (by cbv), ⟨.inl (hchar 'c'), trivial⟩,
        ⟨standsFor_named (by cbv), ⟨.inl (hchar 'd'), trivial⟩, standsFor_named (by cbv)⟩, trivial⟩
    · exact ⟨standsFor_named (by cbv), ⟨.inl (hchar 'e'), trivial⟩, standsFor_named (by cbv)⟩
  exact expanded_text (x := expand) (m := Machine.ready.push nested.tokens)
    (expansive_ready nested.tokens) hwell (by decide) (by decide) (fun t _ => rfl)
    (Stream.supplies_push Machine.readable_ready nested.tokens)

/-- The text `\ifcase 2147483648 a\else b\fi`. -/
def great : CondText :=
  .switch (.named "ifcase")
    { minus := none
      digits := [2, 1, 4, 7, 4, 8, 3, 6, 4, 8].map fun d => (d, none)
      blank := .char .space ' ' none }
    (.last (.token (.char .letter 'a' none) .nil)
      (.otherwise (.named "else") (.token (.char .letter 'b' none) .nil) (.named "fi")))
    .nil

/-- The other branch is not taken for a constant that is no word. -/
theorem not_expanded_great :
    great.WellFormed Machine.ready.scopes.bindings true ∧
      great.value = [.char .letter 'b' none] ∧
      (Machine.ready.push great.tokens).Expansive Machine.ready.scopes.bindings ∧
      Machine.ready.expansions + great.commands.length ≤ Machine.ready.config.maxExpansions ∧
      Stream.raw.Supplies great.tokens (Machine.ready.push great.tokens) Machine.ready ∧
      ¬ Stream.main.Yields great.value (Machine.ready.push great.tokens)
        (Machine.ready.counting great.commands.length) := by
  have hopener : Machine.ready.scopes.bindings.StandsFor (.named "ifcase") (.expansion .ifCase) :=
    standsFor_named (by cbv)
  have hsupplies := Stream.supplies_push Machine.readable_ready great.tokens
  refine ⟨?_, rfl, expansive_ready great.tokens, by decide, hsupplies, ?_⟩
  · have hchar (c : Char) : (Token.char .letter c none).IsCharacter := ⟨_, _, rfl⟩
    exact ⟨hopener, ⟨by simp, by simp, rfl⟩, ⟨⟨.inl (hchar 'a'), trivial⟩, standsFor_named (by cbv),
      ⟨.inl (hchar 'b'), trivial⟩, standsFor_named (by cbv)⟩, trivial⟩
  · intro hyields
    obtain ⟨m₁, ht, hrest⟩ := hsupplies
    obtain ⟨m₂, hconstant, -⟩ := Stream.supplies_append.1 hrest
    obtain ⟨d, m', herror⟩ := expanded_great_constant
      (m := Machine.ready.push great.tokens) (expansive_ready great.tokens) hopener
      ⟨by simp, by simp, rfl⟩ (by decide) (by decide) ht hconstant
    obtain ⟨m₃, hb, -⟩ := hyields
    rw [hb] at herror
    cases herror

end Conditional

end Gullet
