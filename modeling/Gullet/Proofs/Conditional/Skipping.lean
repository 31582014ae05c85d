import Gullet.Expansion.Conditional
import Gullet.Proofs.Conditional.Tested
import Gullet.Proofs.Stream.Supplying

/-!
# Skipping texts

A text is skipped at any depth without changing the depth: each conditional in it goes one level down and
comes back. So a branch is skipped up to the divider that ends it.
-/

namespace Gullet

namespace Conditional

/-- One round of skipping. -/
def skipRound (t : Token) (atElse atCase : Bool) (part : SkippedPart) (depth : Nat) :
    Run (Nat ⊕ Divider) := do
  match ← nextTag with
  | none => Run.fail (.conditionalLeftOpen t part)
  | some none => return .inl depth
  | some (some tag) =>
    match depth, tag with
    | depth, .conditional => return .inl (depth + 1)
    | depth + 1, .endIf => return .inl depth
    | 0, tag =>
      match divider? atElse atCase tag with
      | some d => return .inr d
      | none => return .inl 0
    | depth, _ => return .inl depth

theorem skip_eq_loop (t : Token) (atElse atCase : Bool) (part : SkippedPart) :
    skip t atElse atCase part = Run.loop (skipRound t atElse atCase part) 0 := rfl

variable {opener : Token} {atElse atCase : Bool} {part : SkippedPart} {depth : Nat} {b : Bindings}
  {t : Token} {m m' : Machine}

/-! ### One token -/

theorem nextTag_eval (hm : m.Steady b) (h : Stream.raw m = (.ok (some t), m')) :
    nextTag m = (.ok (some (b.tagOf? t)), m') := by
  unfold nextTag
  rw [Run.bind_of_ok h]
  dsimp only
  rw [Run.get_bind_eval, (hm.raw h).bindings]
  rfl

theorem tagOf?_of_standsFor {p : ExpansionPrimitive} (h : b.StandsFor t (.expansion p)) :
    b.tagOf? t = p.tag? := by
  obtain ⟨ref, hv, hlookup⟩ := h
  unfold Bindings.tagOf?
  rw [hv]
  dsimp only
  rw [hlookup]
  rfl

/-- What a token with the given tag does while skipping at some depth. -/
def afterTag (atElse atCase : Bool) (depth : Nat) : Option Tag → Nat ⊕ Divider
  | none => .inl depth
  | some .conditional => .inl (depth + 1)
  | some tag =>
    match depth with
    | 0 =>
      match divider? atElse atCase tag with
      | some d => .inr d
      | none => .inl 0
    | depth + 1 => .inl (if tag = .endIf then depth else depth + 1)

theorem skipRound_eval (hm : m.Steady b) (h : Stream.raw m = (.ok (some t), m')) :
    skipRound opener atElse atCase part depth m =
      (.ok (afterTag atElse atCase depth (b.tagOf? t)), m') := by
  have htag := nextTag_eval hm h
  unfold skipRound
  generalize b.tagOf? t = tag at htag
  rw [Run.bind_of_ok htag]
  cases tag with
  | none => rfl
  | some tag =>
    cases depth with
    | succ depth => cases tag <;> rfl
    | zero =>
      cases tag with
      | conditional => rfl
      | elseBranch => cases atElse <;> rfl
      | nextCase => cases atCase <;> rfl
      | _ => rfl

/-- The loop goes on over a token that ends nothing. -/
theorem skip_step (hm : m.Steady b) (h : Stream.raw m = (.ok (some t), m')) {depth' : Nat}
    (ht : afterTag atElse atCase depth (b.tagOf? t) = .inl depth') :
    Run.loop (skipRound opener atElse atCase part) depth m =
      Run.loop (skipRound opener atElse atCase part) depth' m' := by
  refine Run.loop_of_progress ?_ (Run.progress_of_raw h hm.accounted)
  rw [skipRound_eval hm h, ht]

theorem afterTag_of_passesOver (ht : b.PassesOver t) :
    afterTag atElse atCase depth (b.tagOf? t) = .inl depth := by
  rcases ht with ⟨category, c, hv⟩ | ht
  · unfold Bindings.tagOf?
    rw [hv]
    rfl
  · unfold Bindings.IsUnconditional at ht
    cases htag : b.tagOf? t with
    | none => rfl
    | some tag =>
      obtain ⟨hconditional, helse, hcase, hend⟩ := ht tag htag
      cases tag
      all_goals first | contradiction | (cases depth <;> rfl)

theorem afterTag_of_opener {p : ExpansionPrimitive} (hp : p.tag? = some .conditional)
    (ht : b.StandsFor t (.expansion p)) :
    afterTag atElse atCase depth (b.tagOf? t) = .inl (depth + 1) := by
  rw [tagOf?_of_standsFor ht, hp]
  rfl

theorem afterTag_of_closer (ht : b.StandsFor t (.expansion .endIf)) :
    afterTag atElse atCase (depth + 1) (b.tagOf? t) = .inl depth := by
  rw [tagOf?_of_standsFor ht]
  rfl

/-- Dividers of a conditional that is passed over as a whole do not matter. -/
theorem afterTag_of_divider {p : ExpansionPrimitive} (hp : p = .elseBranch ∨ p = .nextCase)
    (ht : b.StandsFor t (.expansion p)) :
    afterTag atElse atCase (depth + 1) (b.tagOf? t) = .inl (depth + 1) := by
  rw [tagOf?_of_standsFor ht]
  rcases hp with rfl | rfl
  · rfl
  · rfl

/-! ### Texts -/

theorem skip_tokens {ts : List Token} (hts : ∀ t ∈ ts, b.PassesOver t) (hm : m.Steady b)
    (h : Stream.raw.Supplies ts m m') :
    Run.loop (skipRound opener atElse atCase part) depth m =
      Run.loop (skipRound opener atElse atCase part) depth m' := by
  induction ts generalizing m with
  | nil =>
    obtain rfl : m = m' := h
    rfl
  | cons t ts ih =>
    obtain ⟨m₁, ht, hrest⟩ := h
    obtain ⟨hfirst, hothers⟩ := List.forall_mem_cons.1 hts
    rw [skip_step hm ht (afterTag_of_passesOver hfirst)]
    exact ih hothers (hm.raw ht) hrest

mutual

/-- A text is skipped at any depth, and leaves the depth as it is. -/
theorem skip_text :
    ∀ {text : TestText} {depth : Nat} {m m' : Machine}, text.WellFormed b false → m.Steady b →
      Stream.raw.Supplies text.tokens m m' →
      Run.loop (skipRound opener atElse atCase part) depth m =
        Run.loop (skipRound opener atElse atCase part) depth m'
  | .nil, depth, m, m', _, _, h => by
    obtain rfl : m = m' := h
    rfl
  | .token t rest, depth, m, m', hwell, hm, h => by
    obtain ⟨m₁, ht, hrest⟩ := h
    have hpasses : b.PassesOver t := hwell.1.imp_right And.right
    rw [skip_step hm ht (afterTag_of_passesOver hpasses)]
    exact skip_text hwell.2 (hm.raw ht) hrest
  | .choice opener' test branch ending rest, depth, m, m', hwell, hm, h => by
    obtain ⟨hopener, htest, -, hbranch, hending, hrest⟩ := hwell
    obtain ⟨m₁, ht, h⟩ := h
    obtain ⟨m₂, htest', h⟩ := Stream.supplies_append.1 h
    obtain ⟨m₃, hbranch', h⟩ := Stream.supplies_append.1 h
    obtain ⟨m₄, hending', hrest'⟩ := Stream.supplies_append.1 h
    have hm₁ := hm.raw ht
    have hm₂ := hm₁.supplies htest'
    have hm₃ := hm₂.supplies hbranch'
    rw [skip_step hm ht (afterTag_of_opener test.tag?_primitive hopener),
      skip_tokens (Test.passesOver_of_mem htest) hm₁ htest', skip_text hbranch hm₂ hbranch',
      skip_ending hending hm₃ hending']
    exact skip_text hrest (hm₃.supplies hending') hrest'
  | .switch opener' number cases rest, depth, m, m', hwell, hm, h => by
    obtain ⟨hopener, hnumber, -, hcases, hrest⟩ := hwell
    obtain ⟨m₁, ht, h⟩ := h
    obtain ⟨m₂, hnumber', h⟩ := Stream.supplies_append.1 h
    obtain ⟨m₃, hcases', hrest'⟩ := Stream.supplies_append.1 h
    have hm₁ := hm.raw ht
    have hm₂ := hm₁.supplies hnumber'
    have hpasses (t : Token) (ht : t ∈ number.tokens) : b.PassesOver t :=
      .inl (Numeral.isCharacter_of_mem hnumber t ht)
    rw [skip_step hm ht (afterTag_of_opener rfl hopener), skip_tokens hpasses hm₁ hnumber',
      skip_cases hcases hm₂ hcases']
    exact skip_text hrest (hm₂.supplies hcases') hrest'

/-- An ending leads one level up. -/
theorem skip_ending :
    ∀ {ending : TestEnding} {depth : Nat} {m m' : Machine}, ending.WellFormed b false → m.Steady b →
      Stream.raw.Supplies ending.tokens m m' →
      Run.loop (skipRound opener atElse atCase part) (depth + 1) m =
        Run.loop (skipRound opener atElse atCase part) depth m'
  | .close closer, depth, m, m', hwell, hm, h =>
    skip_step hm (Stream.supplies_singleton.1 h) (afterTag_of_closer hwell)
  | .otherwise divider branch closer, depth, m, m', hwell, hm, h => by
    obtain ⟨hdivider, hbranch, hcloser⟩ := hwell
    obtain ⟨m₁, ht, h⟩ := h
    obtain ⟨m₂, hbranch', hcloser'⟩ := Stream.supplies_append.1 h
    have hm₁ := hm.raw ht
    rw [skip_step hm ht (afterTag_of_divider (.inl rfl) hdivider), skip_text hbranch hm₁ hbranch']
    exact skip_step (hm₁.supplies hbranch') (Stream.supplies_singleton.1 hcloser')
      (afterTag_of_closer hcloser)

/-- The cases of a switch lead one level up. -/
theorem skip_cases :
    ∀ {cases : TestCases} {n : Int} {depth : Nat} {m m' : Machine}, cases.WellFormed b false n →
      m.Steady b → Stream.raw.Supplies cases.tokens m m' →
      Run.loop (skipRound opener atElse atCase part) (depth + 1) m =
        Run.loop (skipRound opener atElse atCase part) depth m'
  | .last branch ending, n, depth, m, m', hwell, hm, h => by
    obtain ⟨hbranch, hending⟩ := hwell
    obtain ⟨m₁, hbranch', hending'⟩ := Stream.supplies_append.1 h
    rw [skip_text hbranch hm hbranch']
    exact skip_ending hending (hm.supplies hbranch') hending'
  | .next branch divider rest, n, depth, m, m', hwell, hm, h => by
    obtain ⟨hbranch, hdivider, hrest⟩ := hwell
    obtain ⟨m₁, hbranch', h⟩ := Stream.supplies_append.1 h
    obtain ⟨m₂, ht, hrest'⟩ := h
    have hm₁ := hm.supplies hbranch'
    rw [skip_text hbranch hm hbranch',
      skip_step hm₁ ht (afterTag_of_divider (.inr rfl) hdivider)]
    exact skip_cases hrest (hm₁.raw ht) hrest'

end

/-! ### Parts of a conditional -/

/-- Only `\fi` ends what is skipped when all other dividers are passed over. -/
theorem skip_rest_of_ending {ending : TestEnding} (hending : ending.WellFormed b false) (hm : m.Steady b)
    (h : Stream.raw.Supplies ending.tokens m m') :
    Run.loop (skipRound opener false false part) 0 m = (.ok .endIf, m') := by
  have hclose {closer : Token} {m : Machine} (hm : m.Steady b)
      (hcloser : b.StandsFor closer (.expansion .endIf))
      (h : Stream.raw m = (.ok (some closer), m')) :
      Run.loop (skipRound opener false false part) 0 m = (.ok .endIf, m') := by
    refine Run.loop_of_answer ?_
    rw [skipRound_eval hm h, tagOf?_of_standsFor hcloser]
    rfl
  cases ending with
  | close closer => exact hclose hm hending (Stream.supplies_singleton.1 h)
  | otherwise divider branch closer =>
    obtain ⟨hdivider, hbranch, hcloser⟩ := hending
    obtain ⟨m₁, ht, h⟩ := h
    obtain ⟨m₂, hbranch', hcloser'⟩ := Stream.supplies_append.1 h
    have hm₁ := hm.raw ht
    have htag : afterTag false false 0 (b.tagOf? divider) = .inl 0 := by
      rw [tagOf?_of_standsFor hdivider]
      rfl
    rw [skip_step hm ht htag, skip_text hbranch hm₁ hbranch']
    exact hclose (hm₁.supplies hbranch') hcloser (Stream.supplies_singleton.1 hcloser')

theorem skip_rest_of_cases :
    ∀ {cases : TestCases} {n : Int} {m : Machine}, cases.WellFormed b false n → m.Steady b →
      Stream.raw.Supplies cases.tokens m m' →
      Run.loop (skipRound opener false false part) 0 m = (.ok .endIf, m')
  | .last branch ending, n, m, hwell, hm, h => by
    obtain ⟨hbranch, hending⟩ := hwell
    obtain ⟨m₁, hbranch', hending'⟩ := Stream.supplies_append.1 h
    rw [skip_text hbranch hm hbranch']
    exact skip_rest_of_ending hending (hm.supplies hbranch') hending'
  | .next branch divider rest, n, m, hwell, hm, h => by
    obtain ⟨hbranch, hdivider, hrest⟩ := hwell
    obtain ⟨m₁, hbranch', h⟩ := Stream.supplies_append.1 h
    obtain ⟨m₂, ht, hrest'⟩ := h
    have hm₁ := hm.supplies hbranch'
    have htag : afterTag false false 0 (b.tagOf? divider) = .inl 0 := by
      rw [tagOf?_of_standsFor hdivider]
      rfl
    rw [skip_text hbranch hm hbranch', skip_step hm₁ ht htag]
    exact skip_rest_of_cases hrest (hm₁.raw ht) hrest'

/-- A branch is skipped up to the divider that ends it. -/
theorem skip_branch {branch : TestText} {p : ExpansionPrimitive} {tag : Tag} {d : Divider}
    {m₁ : Machine} (hbranch : branch.WellFormed b false) (ht : b.StandsFor t (.expansion p))
    (hp : p.tag? = some tag) (htag : tag ≠ .conditional)
    (hd : divider? atElse atCase tag = some d) (hm : m.Steady b)
    (h : Stream.raw.Supplies branch.tokens m m₁) (ht' : Stream.raw m₁ = (.ok (some t), m')) :
    skip opener atElse atCase part m = (.ok d, m') := by
  rw [skip_eq_loop, skip_text hbranch hm h]
  refine Run.loop_of_answer ?_
  rw [skipRound_eval (hm.supplies h) ht', tagOf?_of_standsFor ht, hp]
  cases tag with
  | conditional => exact absurd rfl htag
  | _ => simp [afterTag, hd]

end Conditional

end Gullet
