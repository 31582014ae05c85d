import Gullet.Proofs.Conditional.Yielding
import Gullet.Proofs.Run.Rereading
import Gullet.Proofs.Taking.Expansion

/-!
# Expanding conditionals fully

A list that is a text with tests is expanded fully to what the text evaluates to. Nothing is left of the
expansion but that its steps were counted.
-/

namespace Gullet

variable {levels : Nat} {s : Stream} {ts : List Token} {m m' m'' : Machine}

/-! ### Draining a stream -/

namespace Stream

/-- One round of draining a stream. -/
def drainRound (s : Stream) (sofar : List Token) : Run (List Token ⊕ List Token) := do
  match ← s with
  | none => return .inr sofar.reverse
  | some t => return .inl (t :: sofar)

theorem loop_of_yields (hs : s.Takes levels) (hm : m.Ready levels) (h : s.Yields ts m m')
    (hend : s m' = (.ok none, m'')) (sofar : List Token) :
    Run.loop s.drainRound sofar m = (.ok (sofar.reverse ++ ts), m'') := by
  induction ts generalizing m sofar with
  | nil =>
    refine Run.loop_of_answer ?_
    unfold drainRound
    rw [Run.bind_of_ok ((show s m = s m' from h).trans hend), List.append_nil]
    rfl
  | cons t ts ih =>
    obtain ⟨m₁, ht, hts⟩ := h
    have hround : s.drainRound sofar m = (.ok (.inl (t :: sofar)), m₁) := Run.bind_of_ok ht
    obtain ⟨htook, -⟩ := (hs m hm).of_ok ht
    rw [Run.loop_of_progress hround (htook.progress (List.cons_ne_nil t [])),
      ih (hm.of_continues htook.continues) hts, List.reverse_cons, List.append_assoc]
    rfl

/-- A stream that gives the tokens, and then nothing, is drained to these tokens. -/
theorem drain_of_yields (hs : s.Takes levels) (hm : m.Ready levels) (h : s.Yields ts m m')
    (hend : s m' = (.ok none, m'')) : s.drain m = (.ok ts, m'') :=
  loop_of_yields hs hm h hend []

end Stream

/-! ### Texts as lists -/

namespace Conditional

/-- The machine that reads a list as a region on the way to expanding it fully. -/
theorem expansive_inRegion (haccounted : Input.Accounted m.input.sources)
    (hdepth : m.expansionDepth + 1 < m.config.maxExpansionDepth) (ts : List Token) :
    (m.inRegion { tokens := ts }).Expansive m.scopes.bindings where
  bindings := rfl
  accounted := Input.accounted_region haccounted _
  expanding := by
    intro mode hmode
    cases hmode
    rfl
  depth := hdepth

/-- A region supplies the tokens of its list. -/
theorem supplies_inRegion (hgoing : m.cancellation.raised = false) (ts : List Token) :
    Stream.raw.Supplies ts (m.inRegion { tokens := ts }) (m.inRegion { tokens := [] }) := by
  have hinside : (m.inRegion { tokens := [] }).Readable := ⟨hgoing, List.cons_ne_nil _ _⟩
  rw [Run.inRegion_eq_push]
  exact Stream.supplies_push hinside ts

/-- **A text with tests expands fully to what it evaluates to.** -/
theorem expandFully_tested {text : TestText} (hgoing : m.cancellation.raised = false)
    (haccounted : Input.Accounted m.input.sources)
    (hdepth : m.expansionDepth + 1 < m.config.maxExpansionDepth)
    (hwell : text.WellFormed m.scopes.bindings true)
    (hwords : ∀ n ∈ text.numerals m.scopes.bindings, n.magnitude ≤ 2147483647)
    (hroom : m.expansions + (text.commands m.scopes.bindings).length ≤ m.config.maxExpansions) :
    Stream.expandFully expand text.tokens m =
      (.ok (text.value m.scopes.bindings),
        m.counting (text.commands m.scopes.bindings).length) := by
  let count := (text.commands m.scopes.bindings).length
  let shielded : Machine := { m with fullExpansions := m.fullExpansions + 1 }
  have hyields := yields_tested (x := expand) hwell
    ⟨expansive_inRegion (m := shielded) haccounted hdepth text.tokens, fun _ _ => rfl, hwords, hroom⟩
    (supplies_inRegion (m := shielded) hgoing text.tokens)
  have hend : Stream.expanded expand ((shielded.inRegion { tokens := [] }).counting count) =
      (.ok none, (shielded.inRegion { tokens := [] }).counting count) :=
    Run.expanded_of_none ((Machine.aside_counting count).raw
      (Run.raw_inRegion_nil (m := shielded) hgoing .stack))
  have hdepth' : shielded.expansionDepth < shielded.config.maxExpansionDepth :=
    Nat.lt_of_succ_lt hdepth
  have hready : (shielded.inRegion { tokens := text.tokens }).Ready
      (m.config.maxExpansionDepth + 1) :=
    (Machine.ready_of_lt (m := shielded) haccounted hdepth').inRegion hdepth' _
  have hdrain := Stream.drain_of_yields Run.takes_main hready hyields hend
  have hregion : Run.region { tokens := text.tokens } (Stream.expanded expand).drain shielded =
      (.ok (text.value m.scopes.bindings), shielded.counting count) :=
    Run.region_eq_ok_iff.2 ⟨hdepth', _, hdrain,
      (Run.leaveRegion_inRegion (shielded.counting count) _).symm⟩
  exact Run.shielding_eq_ok_iff.2 ⟨_, hregion, rfl⟩

end Conditional

/-! ### A conditional with both branches -/

/-- A conditional with a branch for each case. -/
def TestText.conditional (opener : Token) (test : Test) (branch : TestText) (divider : Token)
    (other : TestText) (closer : Token) : TestText :=
  .choice opener test branch (.otherwise divider other closer) .nil

namespace TestText

variable {opener divider closer : Token} {test : Test} {branch other : TestText} {b : Bindings}

theorem tokens_conditional :
    (conditional opener test branch divider other closer).tokens =
      opener :: (test.tokens ++ (branch.tokens ++ divider :: (other.tokens ++ [closer]))) := by
  simp [conditional, tokens, TestEnding.tokens]

theorem value_conditional :
    (conditional opener test branch divider other closer).value b =
      if test.holds b then branch.value b else other.value b := by
  simp [conditional, value, TestEnding.value]

end TestText

namespace Conditional

/-- **A conditional expands fully to the branch that its test chooses.** Where the first branch follows the
last digit of `\ifnum` or `\ifodd` at once, it must start with a character that is neither a digit nor a
space, for the end of the number is found by expanding what comes next. -/
theorem expandFully_conditional {opener divider closer : Token} {test : Test}
    {branch other : TestText} (hgoing : m.cancellation.raised = false)
    (haccounted : Input.Accounted m.input.sources)
    (hdepth : m.expansionDepth + 1 < m.config.maxExpansionDepth)
    (hopener : m.scopes.bindings.StandsFor opener (.expansion test.primitive))
    (hdivider : m.scopes.bindings.StandsFor divider (.expansion .elseBranch))
    (hcloser : m.scopes.bindings.StandsFor closer (.expansion .endIf))
    (htest : test.WellFormed m.scopes.bindings)
    (hbranch : branch.WellFormed m.scopes.bindings (test.holds m.scopes.bindings))
    (hother : other.WellFormed m.scopes.bindings (!test.holds m.scopes.bindings))
    (hplain : test.isOpen = true → branch.StartsPlain)
    (hwords : ∀ n ∈ (TestText.conditional opener test branch divider other closer).numerals
      m.scopes.bindings, n.magnitude ≤ 2147483647)
    (hroom : m.expansions + ((TestText.conditional opener test branch divider other closer).commands
      m.scopes.bindings).length ≤ m.config.maxExpansions) :
    Stream.expandFully expand
        (opener :: (test.tokens ++ (branch.tokens ++ divider :: (other.tokens ++ [closer])))) m =
      (.ok (if test.holds m.scopes.bindings then branch.value m.scopes.bindings
          else other.value m.scopes.bindings),
        m.counting ((TestText.conditional opener test branch divider other closer).commands
          m.scopes.bindings).length) := by
  rw [← TestText.tokens_conditional, ← TestText.value_conditional]
  exact expandFully_tested hgoing haccounted hdepth
    ⟨hopener, htest, fun _ => hplain, hbranch, ⟨hdivider, hother, hcloser⟩, trivial⟩ hwords hroom

/-- The text `a\iffalse b\else c\fi`. -/
def lettered : TestText :=
  .token (.char .letter 'a' none)
    (.choice (.named "iffalse") (.fixed false) (.token (.char .letter 'b' none) .nil)
      (.otherwise (.named "else") (.token (.char .letter 'c' none) .nil) (.named "fi")) .nil)

/-- In `\ifnum 1<2a\iffalse b\else c\fi\else d\fi` the first branch follows the digit at once. -/
theorem expandFully_lettered :
    Stream.expandFully expand
        (.named "ifnum" :: .char .other '1' none :: .char .other '<' none :: .char .other '2' none ::
          (lettered.tokens ++ [.named "else", .char .letter 'd' none, .named "fi"])) Machine.ready =
      (.ok [.char .letter 'a' none, .char .letter 'c' none], Machine.ready.counting 4) := by
  have hchar (c : Char) : (Token.char .letter c none).IsCharacter := ⟨_, _, rfl⟩
  let one : Numeral := { signs := [], digits := [(1, none)], blank := none }
  let two : Numeral := { signs := [], digits := [(2, none)], blank := none }
  let less : Test := .compare one (.lt, none) two
  let other : TestText := .token (.char .letter 'd' none) .nil
  have hless : less.WellFormed Machine.ready.scopes.bindings :=
    ⟨⟨by simp [one], by simp [one], by simp [one]⟩, ⟨by simp [two], by simp [two], by simp [two]⟩⟩
  have hopener : Machine.ready.scopes.bindings.StandsFor (.named "ifnum") (.expansion less.primitive) :=
    standsFor_named (by cbv)
  have hdivider : Machine.ready.scopes.bindings.StandsFor (.named "else") (.expansion .elseBranch) :=
    standsFor_named (by cbv)
  have hcloser : Machine.ready.scopes.bindings.StandsFor (.named "fi") (.expansion .endIf) :=
    standsFor_named (by cbv)
  have hlettered : lettered.WellFormed Machine.ready.scopes.bindings
      (less.holds Machine.ready.scopes.bindings) :=
    ⟨.inl (hchar 'a'), standsFor_named (by cbv), trivial,
      fun _ hopen => absurd hopen Bool.false_ne_true, ⟨.inl (hchar 'b'), trivial⟩,
      ⟨hdivider, ⟨.inl (hchar 'c'), trivial⟩, hcloser⟩, trivial⟩
  have hother : other.WellFormed Machine.ready.scopes.bindings
      (!less.holds Machine.ready.scopes.bindings) := ⟨.inl (hchar 'd'), trivial⟩
  have haccounted : Input.Accounted Machine.ready.input.sources :=
    Input.accounted_pushAll (fun _ h => absurd h List.not_mem_nil) []
  exact expandFully_conditional rfl haccounted (by decide) hopener hdivider hcloser hless hlettered
    hother (fun _ => ⟨_, _, rfl, rfl, rfl⟩) (by decide) (by decide)

/-! ### An empty branch -/

theorem primitive_divider_error {x : Expander} {t : Token} {p : ExpansionPrimitive}
    (hp : p = .elseBranch ∨ p = .endIf) (hclosed : m.branches = []) :
    ∃ d, Expansion.primitive x t p m = (.error (.failed d), m) := by
  have hbranch : endHolding t m = Run.fail (.unexpectedDivider t .elseBranch) m := by
    unfold endHolding
    rw [Run.get_bind_eval, hclosed]
  have hend : endConditional t m = Run.fail (.unexpectedDivider t .endIf) m := by
    unfold endConditional
    rw [Run.get_bind_eval, hclosed]
  rcases hp with rfl | rfl
  · exact ⟨_, Run.bind_of_error hbranch⟩
  · exact ⟨_, Run.bind_of_error hend⟩

/-- Where no branch is open, a token that ends one stops the expanded stream. -/
theorem expanded_divider_error {levels : Nat} {t : Token} {p : ExpansionPrimitive} {b : Bindings}
    (hp : p = .elseBranch ∨ p = .endIf) (hlevels : 0 < levels) (hm : m.Expansive b)
    (hclosed : m.branches = []) (hroom : m.expansions < m.config.maxExpansions)
    (ht : b.StandsFor t (.expansion p)) (h : Stream.raw m = (.ok (some t), m')) :
    ∃ d m₁, Stream.expanded (Expansion.expandWithin levels) m = (.error (.failed d), m₁) := by
  obtain ⟨levels, rfl⟩ := Nat.exists_eq_succ_of_ne_zero (Nat.ne_of_gt hlevels)
  have hclosed' : (m'.counting 1).deepened.branches = [] := by
    rw [Run.eq_of_supplies (Stream.supplies_singleton.2 h)]
    exact hclosed
  obtain ⟨d, hprimitive⟩ := primitive_divider_error (x := Expansion.expandWithin levels) (t := t) hp
    hclosed'
  exact expanded_of_primitive_error hm h ht rfl hroom hprimitive

/-- The token that ends an empty branch is refused before the branch is open. -/
theorem expanded_empty_branch_error {opener divider : Token} {test : Test} {p : ExpansionPrimitive}
    {b : Bindings} {m₁ m₂ : Machine} (hm : m.Expansive b) (hclosed : m.branches = [])
    (hdepth : m.expansionDepth + 1 < m.config.maxExpansionDepth)
    (hroom : m.expansions + 2 ≤ m.config.maxExpansions)
    (hopener : b.StandsFor opener (.expansion test.primitive))
    (hp : p = .elseBranch ∨ p = .endIf) (hdivider : b.StandsFor divider (.expansion p))
    (htest : test.WellFormed b) (hopen : test.isOpen = true)
    (hwords : ∀ n ∈ test.numerals, n.magnitude ≤ 2147483647)
    (ht : Stream.raw m = (.ok (some opener), m₁)) (htokens : Stream.raw.Supplies test.tokens m₁ m₂)
    (hend : Stream.raw m₂ = (.ok (some divider), m')) :
    ∃ d m₃, Stream.main m = (.error (.failed d), m₃) := by
  have hread : Stream.raw.Supplies (opener :: test.tokens) m m₂ := ⟨m₁, ht, htokens⟩
  have hsame := Run.eq_of_supplies hread
  have hm₁ := hm.raw ht
  have hm₂ := hm.supplies hread
  have haside := Machine.aside_deepened.comp (Machine.aside_counting 1)
  -- the divider is met one level deeper, while the number is read
  have hinside : (m₂.counting 1).deepened.Expansive b :=
    ⟨⟨hm₂.bindings, hm₂.accounted⟩, hm₂.expanding, by rw [hsame]; exact hdepth⟩
  have hlevels : 0 < m₁.config.maxExpansionDepth := Nat.zero_lt_of_lt hm₁.depth
  obtain ⟨d, m₃, hdivider'⟩ := expanded_divider_error hp hlevels hinside (by rw [hsame]; exact hclosed)
    (by rw [hsame]; exact hroom) hdivider (haside.raw hend)
  have hrun := Test.run_open_error htest hopen hwords (hm₁.counting 1).deepened
    (haside.supplies htokens) hdivider'
  have hprimitive : Expansion.primitive (Expansion.expandWithin m₁.config.maxExpansionDepth) opener
      test.primitive (m₁.counting 1).deepened = (.error (.failed d), m₃) := by
    rw [Test.primitive_eq]
    exact Run.bind_of_error (Run.bind_of_error hrun)
  exact expanded_of_primitive_error hm ht hopener rfl (Nat.lt_of_succ_lt hroom) hprimitive

/-- A full expansion is stopped where the expanded stream is stopped at once. -/
theorem expandFully_of_error {x : Expander} {halt : Halt} {ts : List Token}
    (hdepth : m.expansionDepth < m.config.maxExpansionDepth)
    (h : Stream.expanded x (Machine.inRegion { m with fullExpansions := m.fullExpansions + 1 }
      { tokens := ts }) = (.error halt, m')) :
    ∃ m₁, Stream.expandFully x ts m = (.error halt, m₁) := by
  let shielded : Machine := { m with fullExpansions := m.fullExpansions + 1 }
  have hdrain : (Stream.expanded x).drain (shielded.inRegion { tokens := ts }) = (.error halt, m') :=
    Run.loop_of_error (Run.bind_of_error h)
  have hregion := Run.region_of_lt (m := shielded) (l := { tokens := ts })
    (a := (Stream.expanded x).drain) hdepth
  rw [hdrain] at hregion
  unfold Stream.expandFully Run.shielding
  rw [hregion]
  exact ⟨_, rfl⟩

/-- **An empty branch cannot follow the digits of a number at once.** The token that ends the branch is
expanded while the end of the number is looked for, before the branch is open. So it is refused where no
other branch is open, whatever the condition says. -/
theorem expandFully_empty_branch {opener divider : Token} {test : Test} {p : ExpansionPrimitive}
    {us : List Token} (hgoing : m.cancellation.raised = false)
    (haccounted : Input.Accounted m.input.sources) (hclosed : m.branches = [])
    (hdepth : m.expansionDepth + 2 < m.config.maxExpansionDepth)
    (hopener : m.scopes.bindings.StandsFor opener (.expansion test.primitive))
    (hp : p = .elseBranch ∨ p = .endIf) (hdivider : m.scopes.bindings.StandsFor divider (.expansion p))
    (htest : test.WellFormed m.scopes.bindings) (hopen : test.isOpen = true)
    (hwords : ∀ n ∈ test.numerals, n.magnitude ≤ 2147483647)
    (hroom : m.expansions + 2 ≤ m.config.maxExpansions) :
    ∃ d m', Stream.expandFully expand (opener :: (test.tokens ++ divider :: us)) m =
      (.error (.failed d), m') := by
  let shielded : Machine := { m with fullExpansions := m.fullExpansions + 1 }
  let ts := opener :: (test.tokens ++ divider :: us)
  obtain ⟨m₁, ht, hrest⟩ := supplies_inRegion (m := shielded) hgoing ts
  obtain ⟨m₂, htokens, m₃, hend, -⟩ := Stream.supplies_append.1 hrest
  have hstart := expansive_inRegion (m := shielded) haccounted (Nat.lt_of_succ_lt hdepth) ts
  obtain ⟨d, m₄, herror⟩ := expanded_empty_branch_error hstart hclosed hdepth hroom hopener hp hdivider
    htest hopen hwords ht htokens hend
  have hdepth' : m.expansionDepth < m.config.maxExpansionDepth := by omega
  obtain ⟨m₅, hfull⟩ := expandFully_of_error hdepth' herror
  exact ⟨d, m₅, hfull⟩

end Conditional

end Gullet
