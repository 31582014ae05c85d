import Gullet.Proofs.Conditional.Skipping
import Gullet.Proofs.Conditional.Testing

/-!
# Expanding texts with conditionals

The expanded stream gives the characters that a text with conditionals evaluates to, and goes on with
what follows the text. Each conditional is expanded once where it is taken and not at all elsewhere, and
the branches that are open at the end are those that were open at the start.
-/

namespace Gullet

/-- The machine with another branch open. -/
def Machine.withBranch (m : Machine) (b : Branch) : Machine := { m with branches := b :: m.branches }

theorem Machine.aside_withBranch (b : Branch) : Aside (·.withBranch b) :=
  ⟨fun _ => rfl, fun _ => rfl, fun _ => rfl, fun _ => rfl, fun _ _ => rfl, fun _ _ => rfl⟩

/-- A machine with the given bindings that expands commands. -/
structure Machine.Expansive (b : Bindings) (m : Machine) : Prop extends m.Steady b where
  expanding : m.Expanding
  depth : m.expansionDepth < m.config.maxExpansionDepth

namespace Machine.Expansive

variable {b : Bindings} {ts : List Token} {m m' : Machine}

theorem raw (hm : m.Expansive b) {r : Option Token} (h : Stream.raw m = (.ok r, m')) :
    m'.Expansive b where
  toSteady := hm.toSteady.raw h
  expanding := Run.expanding_of_raw h hm.expanding
  depth := by
    obtain ⟨-, -, rfl⟩ := Run.raw_eq_ok_iff.1 h
    rw [afterRead_eq]
    exact hm.depth

theorem supplies (hm : m.Expansive b) (h : Stream.raw.Supplies ts m m') : m'.Expansive b := by
  induction ts generalizing m with
  | nil =>
    obtain rfl : m = m' := h
    exact hm
  | cons t ts ih =>
    obtain ⟨m₁, ht, hts⟩ := h
    exact ih (hm.raw ht) hts

theorem counting (hm : m.Expansive b) (n : Nat) : (m.counting n).Expansive b :=
  ⟨⟨hm.bindings, hm.accounted⟩, hm.expanding, hm.depth⟩

theorem withBranch (hm : m.Expansive b) (br : Branch) : (m.withBranch br).Expansive b :=
  ⟨⟨hm.bindings, hm.accounted⟩, hm.expanding, hm.depth⟩

theorem deepened (hm : m.Expansive b) : m.deepened.Steady b := ⟨hm.bindings, hm.accounted⟩

/-- To look at a token changes nothing. -/
theorem peeked (hm : m.Expansive b) {t : Token} (looked : Bool)
    (h : Stream.raw m = (.ok (some t), m')) : (m.peeked looked t m').Expansive b where
  toSteady := hm.toSteady.peeked looked h
  expanding := by
    cases looked with
    | false => exact hm.expanding
    | true =>
      have hframe : Input.frame (m'.push [t]).input.sources = Input.frame m'.input.sources :=
        Input.frame_mapTop m'.input fun _ => rfl
      intro mode hmode
      rw [show m.peeked true t m' = m'.push [t] from rfl, hframe] at hmode
      exact Run.expanding_of_raw h hm.expanding mode hmode
  depth := by
    rw [peeked_eq looked h]
    exact hm.depth

end Machine.Expansive

/-- The machine can expand the commands and read the numbers, and the expander does with the commands
what it should. -/
structure Machine.Affords (x : Expander) (b : Bindings) (m : Machine) (commands : List Token)
    (numerals : List Numeral) : Prop where
  expansive : m.Expansive b
  expander : ∀ t ∈ commands, x t = expand t
  words : ∀ n ∈ numerals, n.magnitude ≤ 2147483647
  room : m.expansions + commands.length ≤ m.config.maxExpansions

@[simp] theorem Machine.counting_counting (m : Machine) (n k : Nat) :
    (m.counting n).counting k = m.counting (n + k) := by
  simp [counting, Nat.add_assoc]

namespace Machine.Affords

variable {x : Expander} {b : Bindings} {m m' : Machine} {ts commands others : List Token}
  {numerals otherNumerals : List Numeral}

theorem of_append (h : m.Affords x b (commands ++ others) (numerals ++ otherNumerals)) :
    m.Affords x b commands numerals where
  expansive := h.expansive
  expander t ht := h.expander t (List.mem_append_left _ ht)
  words n hn := h.words n (List.mem_append_left _ hn)
  room := by
    have hroom := h.room
    rw [List.length_append] at hroom
    omega

/-- To read tokens uses nothing up. -/
theorem reading (h : m.Affords x b commands numerals) (hread : Stream.raw.Supplies ts m m') :
    m'.Affords x b commands numerals where
  expansive := h.expansive.supplies hread
  expander := h.expander
  words := h.words
  room := by
    rw [Run.eq_of_supplies hread]
    exact h.room

/-- After some tokens have been read and some of the commands have been expanded, the others can be
expanded. -/
theorem after (h : m.Affords x b (commands ++ others) (numerals ++ otherNumerals))
    (hread : Stream.raw.Supplies ts m m') :
    (m'.counting commands.length).Affords x b others otherNumerals where
  expansive := (h.expansive.supplies hread).counting _
  expander t ht := h.expander t (List.mem_append_right _ ht)
  words n hn := h.words n (List.mem_append_right _ hn)
  room := by
    have hroom := h.room
    rw [List.length_append] at hroom
    rw [Run.eq_of_supplies hread]
    show m.expansions + commands.length + others.length ≤ m.config.maxExpansions
    omega

theorem withBranch (h : m.Affords x b commands numerals) (br : Branch) :
    (m.withBranch br).Affords x b commands numerals :=
  ⟨h.expansive.withBranch br, h.expander, h.words, h.room⟩

/-- To look at a token uses nothing up. -/
theorem peeked (h : m.Affords x b commands numerals) {t : Token} (looked : Bool)
    (ht : Stream.raw m = (.ok (some t), m')) : (m.peeked looked t m').Affords x b commands numerals where
  expansive := h.expansive.peeked looked ht
  expander := h.expander
  words := h.words
  room := by
    rw [Machine.peeked_eq looked ht]
    exact h.room

theorem counting_lt {t : Token} (h : m.Affords x b (t :: commands) numerals) :
    m.expansions < m.config.maxExpansions := by
  have hroom := h.room
  rw [List.length_cons] at hroom
  omega

end Machine.Affords

namespace Conditional

variable {x : Expander} {b : Bindings} {opener t : Token} {m m' m₁ m₂ : Machine}

/-! ### One command -/

/-- A token that stands for a primitive is a command that the expanded stream expands. -/
theorem exists_primitive {p : ExpansionPrimitive} (hm : m.Steady b)
    (ht : b.StandsFor t (.expansion p)) :
    ∃ ref, t.value = .command ref ∧ m.lookup ref = .expansion p ∧
      Stream.expands m (m.lookup ref) = true := by
  obtain ⟨ref, hv, hlookup⟩ := ht
  have hbound : m.lookup ref = .expansion p := by
    unfold Machine.lookup
    rw [hm.bindings]
    exact hlookup
  refine ⟨ref, hv, hbound, ?_⟩
  rw [hbound]
  rfl

/-- After a primitive that gives nothing, the stream goes on from where it has led. -/
theorem expanded_of_primitive {p : ExpansionPrimitive} (m₂ : Machine) (hm : m.Expansive b)
    (h : Stream.raw m = (.ok (some t), m₁)) (ht : b.StandsFor t (.expansion p)) (hx : x t = expand t)
    (hroom : m.expansions < m.config.maxExpansions)
    (hp : Expansion.primitive (Expansion.expandWithin m₁.config.maxExpansionDepth) t p
      (m₁.counting 1).deepened = (.ok none, m₂.deepened))
    (hcount : m₂.expansions = m₁.expansions + 1) (hconfig : m₂.config = m₁.config) :
    Stream.expanded x m = Stream.expanded x m₂ := by
  have hm₁ := hm.raw h
  obtain ⟨ref, hv, hbound, hexpands⟩ := exists_primitive hm₁.toSteady ht
  have hsame := Run.eq_of_supplies (Stream.supplies_singleton.2 h)
  have hexpand : expand t m₁ = (.ok none, m₂) := by
    refine Run.expand_primitive hv hbound ?_ hm₁.depth hp
    rw [hsame]
    exact hroom
  refine Run.expanded_of_expand h hv hm.expanding hexpands ((congrFun hx m₁).trans hexpand) ?_
  unfold Machine.expansionsLeft
  rw [hcount, hconfig, hsame]
  dsimp only
  omega

/-- A primitive that fails stops the stream. -/
theorem expanded_of_primitive_error {p : ExpansionPrimitive} {levels : Nat} {d : Diagnostic}
    (hm : m.Expansive b) (h : Stream.raw m = (.ok (some t), m₁)) (ht : b.StandsFor t (.expansion p))
    (hx : x t m₁ = Expansion.expandWithin (levels + 1) t m₁)
    (hroom : m.expansions < m.config.maxExpansions)
    (hp : Expansion.primitive (Expansion.expandWithin levels) t p (m₁.counting 1).deepened =
      (.error (.failed d), m₂)) :
    ∃ d' m', Stream.expanded x m = (.error (.failed d'), m') := by
  have hm₁ := hm.raw h
  obtain ⟨ref, hv, hbound, hexpands⟩ := exists_primitive hm₁.toSteady ht
  have hroom₁ : m₁.expansions < m₁.config.maxExpansions := by
    rw [Run.eq_of_supplies (Stream.supplies_singleton.2 h)]
    exact hroom
  obtain ⟨d', m', hexpand⟩ := Run.expandWithin_primitive_error hv hbound hroom₁ hm₁.depth hp
  exact ⟨d', m', Run.expanded_of_expand_error h hv hm.expanding hexpands (hx.trans hexpand)⟩

/-! ### Leaving a branch -/

theorem endHolding_eval {kind : BranchKind} (hkind : kind ≠ .otherwise) {d : Divider}
    (h : skip opener false false .falseBranch m = (.ok d, m')) :
    endHolding t (m.withBranch ⟨opener, kind⟩) = (.ok ⟨⟩, m') := by
  have hclose : closeBranch (m.withBranch ⟨opener, kind⟩) = (.ok ⟨⟩, m) := rfl
  unfold endHolding
  rw [Run.get_bind_eval]
  cases kind with
  | otherwise => exact absurd rfl hkind
  | holds =>
    show (closeBranch >>= fun _ => _) _ = _
    rw [Run.bind_of_ok hclose, Run.bind_of_ok h]
    rfl
  | case =>
    show (closeBranch >>= fun _ => _) _ = _
    rw [Run.bind_of_ok hclose, Run.bind_of_ok h]
    rfl

theorem endCase_eval {d : Divider} (h : skip opener false false .remainingCases m = (.ok d, m')) :
    endCase t (m.withBranch ⟨opener, .case⟩) = (.ok ⟨⟩, m') := by
  have hclose : closeBranch (m.withBranch ⟨opener, .case⟩) = (.ok ⟨⟩, m) := rfl
  unfold endCase
  rw [Run.get_bind_eval]
  show (closeBranch >>= fun _ => _) _ = _
  rw [Run.bind_of_ok hclose, Run.bind_of_ok h]
  rfl

/-- The expanded stream leaves the branch at the token, and passes over all that is left of the
conditional. -/
def Leaves (x : Expander) (b : Bindings) (br : Branch) (t : Token) (tokens : List Token) : Prop :=
  ∀ {m m' : Machine}, m.Expansive b → m.expansions < m.config.maxExpansions → x t = expand t →
    Stream.raw.Supplies tokens m m' →
    Stream.expanded x (m.withBranch br) = Stream.expanded x (m'.counting 1)

/-- Every branch is left at `\fi`. -/
theorem leaves_closer {br : Branch} (ht : b.StandsFor t (.expansion .endIf)) :
    Leaves x b br t [t] := by
  intro m m' hm hroom hx h
  have hread := (Machine.aside_withBranch br).raw (Stream.supplies_singleton.1 h)
  exact expanded_of_primitive _ (hm.withBranch br) hread ht hx hroom rfl rfl rfl

/-- The branch of a condition that holds, or of a case, is left at `\fi`, or at `\else` and all that
follows it. -/
theorem leaves_ending {ending : TestEnding} {kind : BranchKind} (hkind : kind ≠ .otherwise)
    (hending : ending.WellFormed b false) :
    Leaves x b ⟨opener, kind⟩ ending.first ending.tokens := by
  intro m m' hm hroom hx h
  cases ending with
  | close closer => exact leaves_closer hending hm hroom hx h
  | otherwise divider branch closer =>
    obtain ⟨hdivider, hbranch, hcloser⟩ := hending
    obtain ⟨m₁, ht, h⟩ := h
    have hsame := Run.eq_of_supplies h
    obtain ⟨m₂, hbranch', hcloser'⟩ := Stream.supplies_append.1 h
    have haside := Machine.aside_deepened.comp (Machine.aside_counting 1)
    have hskip : skip opener false false .falseBranch (m₁.counting 1).deepened =
        (.ok .endIf, (m'.counting 1).deepened) :=
      skip_branch hbranch hcloser rfl (by decide) rfl ((hm.raw ht).counting 1).deepened
        (haside.supplies hbranch') (haside.raw (Stream.supplies_singleton.1 hcloser'))
    refine expanded_of_primitive _ (hm.withBranch _) ((Machine.aside_withBranch _).raw ht) hdivider hx
      hroom (quiet_eval (endHolding_eval hkind hskip)) ?_ ?_
    · rw [hsame]
      rfl
    · rw [hsame]
      rfl

/-- A case is left at `\or` and all that follows it. -/
theorem leaves_case {rest : TestCases} {n : Int} (ht : b.StandsFor t (.expansion .nextCase))
    (hrest : rest.WellFormed b false n) : Leaves x b ⟨opener, .case⟩ t (t :: rest.tokens) := by
  intro m m' hm hroom hx h
  obtain ⟨m₁, ht', hrest'⟩ := h
  have hsame := Run.eq_of_supplies hrest'
  have haside := Machine.aside_deepened.comp (Machine.aside_counting 1)
  have hskip : skip opener false false .remainingCases (m₁.counting 1).deepened =
      (.ok .endIf, (m'.counting 1).deepened) :=
    skip_rest_of_cases hrest ((hm.raw ht').counting 1).deepened (haside.supplies hrest')
  refine expanded_of_primitive _ (hm.withBranch _) ((Machine.aside_withBranch _).raw ht') ht hx hroom
    (quiet_eval (endCase_eval hskip)) ?_ ?_
  · rw [hsame]
    rfl
  · rw [hsame]
    rfl

/-! ### Entering an ending -/

end Conditional

/-- What an ending does with a branch that is skipped before it. -/
def TestEnding.divider : TestEnding → Divider
  | .close _ => .endIf
  | .otherwise _ _ _ => .elseBranch

/-- The tokens of an ending after the first. -/
def TestEnding.remaining : TestEnding → List Token
  | .close _ => []
  | .otherwise _ branch closer => branch.tokens ++ [closer]

/-- The machine on which an ending goes on after a branch that was skipped. -/
def TestEnding.enter (opener : Token) (m : Machine) : TestEnding → Machine
  | .close _ => m
  | .otherwise _ _ _ => m.withBranch ⟨opener, .otherwise⟩

theorem TestEnding.tokens_eq (ending : TestEnding) : ending.tokens = ending.first :: ending.remaining := by
  cases ending <;> rfl

namespace Conditional

variable {x : Expander} {b : Bindings} {opener t : Token} {m m' m₁ m₂ : Machine}

/-- A branch is skipped up to the first token of the ending. -/
theorem skip_to_ending {branch : TestText} {ending : TestEnding} {atCase : Bool} {part : SkippedPart}
    (hbranch : branch.WellFormed b false) (hending : ending.WellFormed b false) (hm : m.Steady b)
    (h : Stream.raw.Supplies branch.tokens m m₁)
    (hfirst : Stream.raw m₁ = (.ok (some ending.first), m₂)) :
    skip opener true atCase part m = (.ok ending.divider, m₂) := by
  cases ending with
  | close closer => exact skip_branch hbranch hending rfl (by decide) rfl hm h hfirst
  | otherwise divider branch closer =>
    exact skip_branch hbranch hending.1 rfl (by decide) rfl hm h hfirst

theorem choose_false_eval {ending : TestEnding}
    (h : skip t true false .trueBranch m = (.ok ending.divider, m')) :
    choose t false m = (.ok ⟨⟩, ending.enter t m') := by
  unfold choose
  rw [if_neg Bool.false_ne_true, Run.bind_of_ok h]
  cases ending <;> rfl

theorem expansions_enter (ending : TestEnding) :
    (ending.enter opener m).expansions = m.expansions := by
  cases ending <;> rfl

theorem config_enter (ending : TestEnding) : (ending.enter opener m).config = m.config := by
  cases ending <;> rfl

theorem enter_deepened (ending : TestEnding) :
    ending.enter opener m.deepened = (ending.enter opener m).deepened := by
  cases ending <;> rfl

/-! ### Choosing a case -/

/-- One round of choosing a case. -/
def caseRound (t : Token) (n : Int) : Run (Int ⊕ Unit) := do
  if n = 0 then
    openBranch ⟨t, .case⟩
    return .inr ()
  else
    match ← skip t true true .cases with
    | .nextCase => return .inl (n - 1)
    | .elseBranch =>
      openBranch ⟨t, .otherwise⟩
      return .inr ()
    | .endIf => return .inr ()

theorem chooseCase_eq (t : Token) (n : Int) : chooseCase t n = Run.loop (caseRound t) n := rfl

theorem chooseCase_zero (m : Machine) :
    chooseCase t 0 m = (.ok ⟨⟩, m.withBranch ⟨t, .case⟩) := by
  rw [chooseCase_eq]
  exact Run.loop_of_answer rfl

theorem chooseCase_ending {ending : TestEnding} {n : Int} (hn : n ≠ 0)
    (h : skip t true true .cases m = (.ok ending.divider, m')) :
    chooseCase t n m = (.ok ⟨⟩, ending.enter t m') := by
  rw [chooseCase_eq]
  refine Run.loop_of_answer ?_
  unfold caseRound
  rw [if_neg hn, Run.bind_of_ok h]
  cases ending <;> rfl

theorem chooseCase_next {n : Int} (hn : n ≠ 0) (h : skip t true true .cases m = (.ok .nextCase, m'))
    (hp : Run.Progress m m') : chooseCase t n m = chooseCase t (n - 1) m' := by
  rw [chooseCase_eq, chooseCase_eq]
  refine Run.loop_of_progress ?_ hp
  unfold caseRound
  rw [if_neg hn, Run.bind_of_ok h]
  rfl

end Conditional

/-! ### Texts -/

namespace Conditional

variable {x : Expander} {b : Bindings} {t : Token} {m m' m₁ m₂ m₃ : Machine}

/-- A branch is given as what it evaluates to, and then left. -/
theorem yields_branch {branch : TestText} {br : Branch} {ts : List Token}
    (hleaves : Leaves x b br t ts)
    (hyields : ∀ {m m' : Machine}, m.Affords x b (branch.commands b) (branch.numerals b) →
      Stream.raw.Supplies branch.tokens m m' →
      (Stream.expanded x).Yields (branch.value b) m (m'.counting (branch.commands b).length))
    (ha : m.Affords x b (branch.commands b ++ [t]) (branch.numerals b))
    (hbranch : Stream.raw.Supplies branch.tokens m m₁) (hts : Stream.raw.Supplies ts m₁ m') :
    (Stream.expanded x).Yields (branch.value b) (m.withBranch br)
      (m'.counting (branch.commands b ++ [t]).length) := by
  rw [← List.append_nil (branch.numerals b)] at ha
  have hafter := ha.after hbranch
  have hleave := hleaves hafter.expansive hafter.counting_lt (hafter.expander t List.mem_cons_self)
    ((Machine.aside_counting _).supplies hts)
  rw [Machine.counting_counting] at hleave
  rw [List.length_append]
  exact (hyields (ha.of_append.withBranch br)
    ((Machine.aside_withBranch br).supplies hbranch)).trans_eq hleave

/-- Where no branch before the ending is taken, the ending is entered and given as what it evaluates to. -/
theorem yields_entered {branch : TestText} {ending : TestEnding} {atCase : Bool} (part : SkippedPart)
    (hbranch : branch.WellFormed b false) (hending : ending.WellFormed b false)
    (hyields : ∀ {m m' : Machine}, m.Affords x b (ending.commands b) (ending.numerals b) →
      Stream.raw.Supplies ending.remaining m m' →
      (Stream.expanded x).Yields (ending.value b) (ending.enter t m)
        (m'.counting (ending.commands b).length))
    (ha : m.Affords x b (ending.commands b) (ending.numerals b))
    (h : Stream.raw.Supplies branch.tokens m m₁) (h' : Stream.raw.Supplies ending.tokens m₁ m') :
    ∃ m₂, skip t true atCase part m.deepened = (.ok ending.divider, m₂.deepened) ∧
      (ending.enter t m₂).expansions = m.expansions ∧ (ending.enter t m₂).config = m.config ∧
      (Stream.expanded x).Yields (ending.value b) (ending.enter t m₂)
        (m'.counting (ending.commands b).length) := by
  rw [TestEnding.tokens_eq] at h'
  obtain ⟨m₂, hfirst, hremaining⟩ := h'
  have hread := Stream.supplies_append.2 ⟨m₁, h, Stream.supplies_singleton.2 hfirst⟩
  refine ⟨m₂, ?_, ?_, ?_, hyields (ha.reading hread) hremaining⟩
  · exact skip_to_ending hbranch hending ha.expansive.deepened (Machine.aside_deepened.supplies h)
      (Machine.aside_deepened.raw hfirst)
  · rw [expansions_enter, Run.eq_of_supplies hread]
  · rw [config_enter, Run.eq_of_supplies hread]

/-- What follows a conditional is given after the branch of it that is taken. The machine `m₁` stands
behind what the conditional tests, `m₂` behind the conditional and `m'` behind what follows it. -/
theorem yields_then {opener : Token} {vs ws ts us inside others : List Token}
    {numerals otherNumerals : List Numeral}
    (ha : (m₁.counting 1).Affords x b (inside ++ others) (numerals ++ otherNumerals))
    (hts : Stream.raw.Supplies ts m₁ m₂) (hus : Stream.raw.Supplies us m₂ m')
    (hopened : Stream.expanded x m = Stream.expanded x m₃)
    (hyields : (Stream.expanded x).Yields vs m₃ ((m₂.counting 1).counting inside.length))
    (hrest : ∀ {m m' : Machine}, m.Affords x b others otherNumerals →
      Stream.raw.Supplies us m m' → (Stream.expanded x).Yields ws m (m'.counting others.length)) :
    (Stream.expanded x).Yields (vs ++ ws) m (m'.counting (opener :: (inside ++ others)).length) := by
  have haside := (Machine.aside_counting inside.length).comp (Machine.aside_counting 1)
  have hafter := hrest (ha.after ((Machine.aside_counting 1).supplies hts)) (haside.supplies hus)
  have hlength : 1 + inside.length + others.length = (opener :: (inside ++ others)).length := by
    rw [List.length_cons, List.length_append]
    omega
  rw [Machine.counting_counting m', Machine.counting_counting m', hlength] at hafter
  exact (hyields.append hafter).of_eq hopened

/-- A command that has to be expanded reads its operand one level deeper. Afterwards the machine stands
in front of what follows the operand, whether or not that was looked at. -/
theorem exists_behind_operand {α : Type} {action : Run α} {operand us commands : List Token}
    {looks : Bool} {r : α} {numerals otherNumerals : List Numeral}
    (hreads : action.Reads b operand looks r)
    (ha : m.Affords x b (t :: commands) (numerals ++ otherNumerals))
    (ht : Stream.raw m = (.ok (some t), m₁)) (hoperand : Stream.raw.Supplies operand m₁ m₂)
    (hus : Stream.raw.Supplies us m₂ m') (hne : us ≠ [])
    (hplain : looks = true → ∀ {u : Token} {ts : List Token}, us = u :: ts → u.IsPlain) :
    ∃ m₃, action (m₁.counting 1).deepened = (.ok r, (m₃.counting 1).deepened) ∧
      Stream.raw.Supplies us m₃ m' ∧ (m₃.counting 1).Affords x b commands otherNumerals ∧
      m₃.expansions = m₁.expansions ∧ m₃.config = m₁.config := by
  obtain ⟨u, ts, rfl⟩ := List.exists_cons_of_ne_nil hne
  obtain ⟨m₃, hu, hpeeked⟩ := Stream.supplies_peeked hus
  have haside := Machine.aside_deepened.comp (Machine.aside_counting 1)
  have hall : m.Affords x b ([t] ++ commands) (numerals ++ otherNumerals) := ha
  have hboth : Stream.raw.Supplies (t :: operand) m m₂ := ⟨m₁, ht, hoperand⟩
  have hafter : (m₂.counting 1).Affords x b commands otherNumerals := hall.after hboth
  have hread := hreads (hall.of_append.expansive.raw ht |>.counting 1).deepened
    (haside.supplies hoperand) fun hlooks => ⟨haside.raw hu, hplain hlooks rfl⟩
  rw [← haside.peeked] at hread
  have hsame := Machine.peeked_eq looks hu
  refine ⟨m₂.peeked looks u m₃, hread, hpeeked looks, ?_, ?_, ?_⟩
  · rw [(Machine.aside_counting 1).peeked]
    exact hafter.peeked looks ((Machine.aside_counting 1).raw hu)
  · rw [hsame, Run.eq_of_supplies hoperand]
  · rw [hsame, Run.eq_of_supplies hoperand]

mutual

/-- A text that is taken is given as what it evaluates to. -/
theorem yields_tested :
    ∀ {text : TestText} {m m' : Machine}, text.WellFormed b true →
      m.Affords x b (text.commands b) (text.numerals b) → Stream.raw.Supplies text.tokens m m' →
      (Stream.expanded x).Yields (text.value b) m (m'.counting (text.commands b).length)
  | .nil, m, m', hwell, ha, h => by
    obtain rfl : m = m' := h
    exact rfl
  | .token t rest, m, m', hwell, ha, h => by
    obtain ⟨m₁, ht, hrest⟩ := h
    obtain ⟨⟨category, c, hv⟩ | ⟨hfalse, -⟩, hwell⟩ := hwell
    · have ha₁ : m₁.Affords x b (rest.commands b) (rest.numerals b) :=
        ha.reading (Stream.supplies_singleton.2 ht)
      exact ⟨m₁, Run.expanded_of_char ht hv, yields_tested hwell ha₁ hrest⟩
    · cases hfalse
  | .choice opener test branch ending rest, m, m', hwell, ha, h => by
    obtain ⟨hopener, htest, hplain, hbranch, hending, hrest⟩ := hwell
    obtain ⟨m₁, ht, h⟩ := h
    obtain ⟨m₂, htest', h⟩ := Stream.supplies_append.1 h
    have hwords (n : Numeral) (hn : n ∈ test.numerals) : n.magnitude ≤ 2147483647 :=
      ha.words n (List.mem_append_left _ hn)
    have hreads := Test.reads_run (x := Expansion.expandWithin m₁.config.maxExpansionDepth) htest hwords
    obtain ⟨m₃, hrun, h, hinside, hcount, hconfig⟩ := exists_behind_operand hreads ha ht htest' h
      (List.append_ne_nil_of_right_ne_nil _ (List.append_ne_nil_of_left_ne_nil ending.tokens_ne_nil _))
      fun hopen => (hplain rfl hopen).isPlain
    obtain ⟨m₄, hbranch', h⟩ := Stream.supplies_append.1 h
    obtain ⟨m₅, hending', hrest'⟩ := Stream.supplies_append.1 h
    have hboth := Stream.supplies_append.2 ⟨m₄, hbranch', hending'⟩
    have hx := ha.expander opener List.mem_cons_self
    cases hholds : test.holds b with
    | true =>
      simp only [TestText.value, TestText.commands, hholds, Bool.true_and, if_true]
        at hbranch hinside ⊢
      have hopened := expanded_of_primitive ((m₃.counting 1).withBranch ⟨opener, .holds⟩)
        ha.expansive ht hopener hx ha.counting_lt (Test.primitive_eval hrun (by rw [hholds]; rfl))
        (congrArg (· + 1) hcount) hconfig
      have hleaves : Leaves x b ⟨opener, .holds⟩ ending.first ending.tokens :=
        leaves_ending (by decide) hending.skipped
      have htaken := yields_branch hleaves (fun ha h => yields_tested hbranch ha h) hinside.of_append
        ((Machine.aside_counting 1).supplies hbranch') ((Machine.aside_counting 1).supplies hending')
      exact yields_then hinside hboth hrest' hopened htaken fun ha h => yields_tested hrest ha h
    | false =>
      simp only [TestText.value, TestText.commands, hholds, Bool.true_and, Bool.not_false,
        Bool.false_eq_true, if_false] at hbranch hending hinside ⊢
      obtain ⟨m₆, hskip, hcount', hconfig', htaken⟩ := yields_entered .trueBranch hbranch
        hending.skipped (fun ha h => yields_tested_ending opener hending ha h) hinside.of_append
        ((Machine.aside_counting 1).supplies hbranch') ((Machine.aside_counting 1).supplies hending')
      have hchoose : choose opener false (m₃.counting 1).deepened =
          (.ok ⟨⟩, (ending.enter opener m₆).deepened) := by
        rw [choose_false_eval hskip, enter_deepened]
      have hopened := expanded_of_primitive (ending.enter opener m₆) ha.expansive ht hopener hx
        ha.counting_lt (Test.primitive_eval hrun (by rw [hholds]; exact hchoose))
        (hcount'.trans (congrArg (· + 1) hcount)) (hconfig'.trans hconfig)
      exact yields_then hinside hboth hrest' hopened htaken fun ha h => yields_tested hrest ha h
  | .switch opener number cases rest, m, m', hwell, ha, h => by
    obtain ⟨hopener, hnumber, hplain, hcases, hrest⟩ := hwell
    obtain ⟨m₁, ht, h⟩ := h
    obtain ⟨m₂, hnumber', h⟩ := Stream.supplies_append.1 h
    have hreads := Reader.reads_number (x := Expansion.expandWithin m₁.config.maxExpansionDepth)
      (b := b) hnumber (ha.words number List.mem_cons_self)
    have hall : m.Affords x b (opener :: (cases.commands b number.value ++ rest.commands b))
        ([number] ++ (cases.numerals b number.value ++ rest.numerals b)) := ha
    obtain ⟨m₃, hrun, h, hinside, hcount, hconfig⟩ := exists_behind_operand hreads hall ht hnumber' h
      (List.append_ne_nil_of_left_ne_nil cases.tokens_ne_nil _) fun hopen => (hplain rfl hopen).isPlain
    obtain ⟨m₄, hcases', hrest'⟩ := Stream.supplies_append.1 h
    obtain ⟨m₅, hchoose, hcount', hconfig', htaken⟩ := yields_tested_cases opener hcases
      hinside.of_append ((Machine.aside_counting 1).supplies hcases')
    have hopened := expanded_of_primitive m₅ ha.expansive ht hopener
      (ha.expander opener List.mem_cons_self) ha.counting_lt
      (quiet_eval ((Run.bind_of_ok hrun).trans hchoose)) (hcount'.trans (congrArg (· + 1) hcount))
      (hconfig'.trans hconfig)
    exact yields_then hinside hcases' hrest' hopened htaken fun ha h => yields_tested hrest ha h

/-- An ending that is entered is given as what it evaluates to. -/
theorem yields_tested_ending :
    ∀ {ending : TestEnding} (opener : Token) {m m' : Machine}, ending.WellFormed b true →
      m.Affords x b (ending.commands b) (ending.numerals b) →
      Stream.raw.Supplies ending.remaining m m' →
      (Stream.expanded x).Yields (ending.value b) (ending.enter opener m)
        (m'.counting (ending.commands b).length)
  | .close closer, opener, m, m', hwell, ha, h => by
    obtain rfl : m = m' := h
    exact rfl
  | .otherwise divider branch closer, opener, m, m', hwell, ha, h => by
    obtain ⟨hdivider, hbranch, hcloser⟩ := hwell
    obtain ⟨m₁, hbranch', hcloser'⟩ := Stream.supplies_append.1 h
    exact yields_branch (leaves_closer hcloser) (fun ha h => yields_tested hbranch ha h) ha hbranch'
      hcloser'

/-- The case that a number chooses is given as what it evaluates to. -/
theorem yields_tested_cases :
    ∀ {cases : TestCases} {n : Int} (opener : Token) {m m' : Machine}, cases.WellFormed b true n →
      m.Affords x b (cases.commands b n) (cases.numerals b n) →
      Stream.raw.Supplies cases.tokens m m' →
      ∃ m₂, chooseCase opener n m.deepened = (.ok ⟨⟩, m₂.deepened) ∧
        m₂.expansions = m.expansions ∧ m₂.config = m.config ∧
        (Stream.expanded x).Yields (cases.value b n) m₂ (m'.counting (cases.commands b n).length)
  | .last branch ending, n, opener, m, m', hwell, ha, h => by
    obtain ⟨hbranch, hending⟩ := hwell
    obtain ⟨m₁, hbranch', hending'⟩ := Stream.supplies_append.1 h
    by_cases hn : n = 0
    · subst hn
      refine ⟨m.withBranch ⟨opener, .case⟩, chooseCase_zero _, rfl, rfl, ?_⟩
      exact yields_branch (leaves_ending (by decide) hending) (fun ha h => yields_tested hbranch ha h)
        ha hbranch' hending'
    · simp only [ne_eq, hn, decide_false, not_false_eq_true, decide_true, Bool.true_and]
        at hbranch hending
      simp only [TestCases.commands, TestCases.numerals, TestCases.value, if_neg hn] at ha ⊢
      obtain ⟨m₂, hskip, hcount, hconfig, htaken⟩ := yields_entered .cases hbranch hending.skipped
        (fun ha h => yields_tested_ending opener hending ha h) ha hbranch' hending'
      refine ⟨ending.enter opener m₂, ?_, hcount, hconfig, htaken⟩
      rw [chooseCase_ending hn hskip, enter_deepened]
  | .next branch divider rest, n, opener, m, m', hwell, ha, h => by
    obtain ⟨hbranch, hdivider, hrest⟩ := hwell
    obtain ⟨m₁, hbranch', h⟩ := Stream.supplies_append.1 h
    by_cases hn : n = 0
    · subst hn
      -- The other cases are passed over at the divider after this one.
      refine ⟨m.withBranch ⟨opener, .case⟩, chooseCase_zero _, rfl, rfl, ?_⟩
      exact yields_branch (leaves_case hdivider hrest) (fun ha h => yields_tested hbranch ha h) ha
        hbranch' h
    · -- The number goes down by one with each case that is skipped.
      simp only [ne_eq, hn, decide_false, not_false_eq_true, decide_true, Bool.true_and]
        at hbranch hrest
      simp only [TestCases.commands, TestCases.numerals, TestCases.value, if_neg hn] at ha ⊢
      obtain ⟨m₂, ht, hrest'⟩ := h
      have hread := Stream.supplies_append.2 ⟨m₁, hbranch', Stream.supplies_singleton.2 ht⟩
      have hafter : m₂.Affords x b (rest.commands b (n - 1)) (rest.numerals b (n - 1)) :=
        ha.reading hread
      have hskip : skip opener true true .cases m.deepened = (.ok .nextCase, m₂.deepened) :=
        skip_branch hbranch hdivider rfl (by decide) rfl ha.expansive.deepened
          (Machine.aside_deepened.supplies hbranch') (Machine.aside_deepened.raw ht)
      have hprogress : Run.Progress m.deepened m₂.deepened :=
        Run.progress_of_supplies (Machine.aside_deepened.supplies hread) (by simp)
          ha.expansive.accounted
      obtain ⟨m₃, hchoose, hcount, hconfig, htaken⟩ := yields_tested_cases opener hrest hafter hrest'
      refine ⟨m₃, (chooseCase_next hn hskip hprogress).trans hchoose, ?_, ?_, htaken⟩
      · rw [hcount, Run.eq_of_supplies hread]
      · rw [hconfig, Run.eq_of_supplies hread]

end

end Conditional

end Gullet
