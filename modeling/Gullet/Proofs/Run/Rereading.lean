import Gullet.Proofs.Taking.Arguments

/-!
# Reading what was put in front of the input

Tokens that were put in front of the input are read in their order. In particular the name of an
environment, put there in braces, is read as a label again.
-/

namespace Gullet

/-- The machine with tokens in front of its input. -/
def Machine.push (m : Machine) (ts : List Token) : Machine := { m with input := m.input.pushAll ts }

/-- The expanded stream gives a token without expanding it. -/
def Machine.LeavesAlone (m : Machine) (t : Token) : Prop :=
  ∀ ref, t.value = .command ref → Stream.expands m (m.lookup ref) = false

/-- Tokens can be read, and nothing stops the run. -/
structure Machine.Readable (m : Machine) : Prop where
  going : m.cancellation.raised = false
  sources : m.input.sources ≠ []

namespace Run

variable {α β : Type} {m m' : Machine} {t : Token} {ts rest : List Token}

/-! ### Tokens -/

theorem push_nil (hm : m.Readable) : m.push [] = m := by
  rcases Input.sources_pushAll m.input [] with ⟨hs, -⟩ | ⟨s, below, hs, h⟩
  · exact absurd hs hm.sources
  · have hpending : s.pending.pushAll [] = s.pending := Pending.ext_tokens rfl
    have hinput : m.input.pushAll [] = m.input := by
      rw [hpending] at h
      exact congrArg Input.mk (h.trans hs.symm)
    unfold Machine.push
    rw [hinput]

theorem push_push (m : Machine) (ts us : List Token) : (m.push us).push ts = m.push (ts ++ us) := by
  unfold Machine.push
  rw [Input.pushAll_append]

theorem pushTokens_push (us ts : List Token) (m : Machine) :
    pushTokens us (m.push ts) = (.ok ⟨⟩, m.push (us ++ ts)) := by
  unfold Machine.push
  rw [Input.pushAll_append]
  rfl

theorem pushBack_push (t : Token) (ts : List Token) (m : Machine) :
    pushBack t (m.push ts) = (.ok ⟨⟩, m.push (t :: ts)) := by
  unfold Machine.push
  rw [← List.singleton_append, Input.pushAll_append, ← Input.push_eq_pushAll]
  rfl

theorem raw_push (hm : m.Readable) : Stream.raw (m.push (t :: ts)) = (.ok (some t), m.push ts) := by
  obtain ⟨s, below, hs⟩ := List.exists_cons_of_ne_nil hm.sources
  have hread (code : Char → CatCode) (report : Bool) :
      Input.read code report true (m.input.pushAll (t :: ts)).sources =
        { result := .ok (some t), sources := (m.input.pushAll ts).sources } := by
    rw [← List.singleton_append, Input.pushAll_append, ← Input.push_eq_pushAll]
    unfold Input.pushAll Input.push Input.mapTop
    rw [hs]
    dsimp only
    rw [Input.read, Pending.pop?_push]
  have hgoing : (m.push (t :: ts)).cancellation.raised = false := hm.going
  unfold Stream.raw
  rw [get_bind_eval, hgoing]
  dsimp only [Machine.push]
  rw [hread]
  rfl

/-- A token that is not wanted is put back. -/
theorem take?_push (hm : m.Readable) {p : TokenValue → Option α} (hp : p t.value = none) :
    Stream.raw.take? p (m.push (t :: ts)) = (.ok none, m.push (t :: ts)) := by
  unfold Stream.take?
  rw [bind_of_ok (raw_push hm)]
  dsimp only
  rw [hp]
  dsimp only
  rw [bind_of_ok (pushBack_push t ts m)]
  rfl

theorem skipSpaces_push (hm : m.Readable) (ht : t.value.isSpace = false) :
    Stream.raw.skipSpaces (m.push (t :: ts)) = (.ok ⟨⟩, m.push (t :: ts)) := by
  have htake : Stream.raw.takeSpace (m.push (t :: ts)) = (.ok false, m.push (t :: ts)) := by
    unfold Stream.takeSpace
    rw [bind_of_ok (take?_push hm (by rw [ht]; rfl))]
    rfl
  refine loop_of_answer ?_
  rw [bind_of_ok htake]
  rfl

theorem nextOr_push (hm : m.Readable) (during : Activity) :
    Stream.raw.nextOr during (m.push (t :: ts)) = (.ok t, m.push ts) := by
  unfold Stream.nextOr
  rw [bind_of_ok (raw_push hm)]
  rfl

theorem progress_push (m : Machine) (t : Token) (ts : List Token) :
    Progress (m.push (t :: ts)) (m.push ts) := by
  refine .inr ⟨rfl, ?_⟩
  unfold Machine.push
  rw [Input.size_eq, Input.size_eq, Input.unread_pushAll, Input.unread_pushAll,
    Input.upcoming_pushAll, Input.upcoming_pushAll, List.length_append, List.length_append,
    List.length_cons]
  omega

/-- A loop reads on over tokens of which each leads to another round. -/
theorem loop_push {step : β → Run (β ⊕ α)} (next : β → Token → β) {body : List Token}
    (h : ∀ b, ∀ t ∈ body, ∀ ts, step b (m.push (t :: ts)) = (.ok (.inl (next b t)), m.push ts))
    (b : β) (rest : List Token) :
    loop step b (m.push (body ++ rest)) = loop step (body.foldl next b) (m.push rest) := by
  induction body generalizing b with
  | nil => rfl
  | cons t body ih =>
    rw [List.cons_append, loop_of_progress (h b t List.mem_cons_self _) (progress_push m t _)]
    exact ih (fun b t ht => h b t (List.mem_cons_of_mem _ ht)) _

/-! ### Plain text -/

/-- Plain text is read up to the brace after it. -/
theorem balanced_push (hm : m.Readable) {body : List Token} (hbody : Token.IsPlainText body)
    {closer : Token} (hc : closer.value.isEndGroup = true) (rest : List Token) :
    Reader.balanced Stream.raw (m.push (body ++ closer :: rest)) =
      (.ok (true, body), m.push rest) := by
  have hfold (sofar : List Token) :
      body.foldl (fun (b : Nat × List Token) t => (b.1, t :: b.2)) (0, sofar) =
        (0, body.reverse ++ sofar) := by
    clear hbody
    induction body generalizing sofar with
    | nil => rfl
    | cons t body ih =>
      rw [List.foldl_cons, ih, List.reverse_cons, List.append_assoc]
      rfl
  unfold Reader.balanced
  rw [loop_push fun (b : Nat × List Token) t => (b.1, t :: b.2)]
  · rw [hfold]
    refine loop_of_answer ((bind_of_ok (raw_push hm)).trans ?_)
    dsimp only
    rw [TokenValue.isBeginGroup_of_isEndGroup hc, hc]
    simp
  · rintro ⟨depth, sofar⟩ t ht ts
    obtain ⟨-, hto, htc⟩ := hbody t ht
    refine (bind_of_ok (raw_push hm)).trans ?_
    dsimp only
    rw [hto, htc]
    rfl

/-- Plain text in braces is read as an argument. -/
theorem argument_push (hm : m.Readable) {body : List Token} (hbody : Token.IsPlainText body)
    {opener closer : Token} (ho : opener.value.isBeginGroup = true)
    (hc : closer.value.isEndGroup = true) (rest : List Token) :
    Reader.argument (m.push (opener :: (body ++ closer :: rest))) = (.ok body, m.push rest) := by
  have hspace := (TokenValue.category_of_isBeginGroup ho).2
  unfold Reader.argument
  rw [bind_of_ok (skipSpaces_push hm hspace), bind_of_ok (nextOr_push hm _), ho, if_pos rfl]
  unfold Reader.finishBalanced
  rw [bind_of_ok (balanced_push hm hbody hc rest)]
  rfl

/-! ### Regions -/

/-- A region that is not left by stopping the run is closed when it has been read. -/
theorem region_eq_ok_iff {a : Run α} {l : TokenList} {m m' : Machine} {x : α} :
    region l a m = (.ok x, m') ↔
      m.expansionDepth < m.config.maxExpansionDepth ∧
        ∃ m₁, a (m.inRegion l) = (.ok x, m₁) ∧ m' = m.leaveRegion m₁ := by
  by_cases hd : m.expansionDepth < m.config.maxExpansionDepth
  · rw [region_of_lt hd]
    constructor
    · intro h
      obtain ⟨hresult, rfl⟩ := Prod.mk.inj h
      exact ⟨hd, _, Prod.ext hresult rfl, rfl⟩
    · rintro ⟨-, m₁, h, rfl⟩
      rw [h]
  · rw [region_of_le (Nat.le_of_not_lt hd)]
    constructor
    · intro h
      cases h
    · rintro ⟨hlt, -⟩
      exact absurd hlt hd

theorem shielding_eq_ok_iff {a : Run α} {m m' : Machine} {x : α} :
    shielding a m = (.ok x, m') ↔
      ∃ m₁, a { m with fullExpansions := m.fullExpansions + 1 } = (.ok x, m₁) ∧
        m' = { m₁ with fullExpansions := m₁.fullExpansions - 1 } := by
  unfold shielding
  constructor
  · intro h
    obtain ⟨hresult, hafter⟩ := Prod.mk.inj h
    exact ⟨_, Prod.ext hresult rfl, hafter.symm⟩
  · rintro ⟨m₁, h, rfl⟩
    rw [h]

/-- The region of a list is that of no tokens with the list in front. -/
theorem inRegion_eq_push (m : Machine) (l : TokenList) :
    m.inRegion l = (m.inRegion { l with tokens := [] }).push l.tokens := by
  have hpending : Pending.ofList l.tokens = (Pending.ofList []).pushAll l.tokens :=
    Pending.ext_tokens (List.append_nil l.tokens).symm
  unfold Machine.inRegion Machine.push InputSource.ofList Input.enter Input.pushAll Input.mapTop
  dsimp only
  rw [hpending]

theorem leaveRegion_inRegion (m : Machine) (l : TokenList) : m.leaveRegion (m.inRegion l) = m := by
  have hinput : (m.leaveRegion (m.inRegion l)).input = m.input := by
    have hbeyond : Input.beyond (m.inRegion l).input.sources = m.input.sources := rfl
    exact congrArg Input.mk (Machine.sources_leaveRegion hbeyond)
  calc m.leaveRegion (m.inRegion l) =
      { m with input := (m.leaveRegion (m.inRegion l)).input } := rfl
    _ = m := by rw [hinput]

/-- At the end of a region nothing is read. -/
theorem raw_inRegion_nil (hm : m.cancellation.raised = false) (mode : ListMode) :
    Stream.raw (m.inRegion { tokens := [], mode }) =
      (.ok none, m.inRegion { tokens := [], mode }) := by
  have hgoing : (m.inRegion { tokens := [], mode }).cancellation.raised = false := hm
  unfold Stream.raw
  rw [get_bind_eval, hgoing]
  rfl

/-- At the end of the input nothing is given. -/
theorem expanded_of_none {x : Expander} (h : Stream.raw m = (.ok none, m')) :
    Stream.expanded x m = (.ok none, m') := by
  refine loop_of_answer ?_
  unfold Stream.expandedRound
  exact bind_of_ok h

/-- A token that is not expanded is given as it is. -/
theorem expanded_of_leavesAlone {x : Expander} (h : Stream.raw m = (.ok (some t), m'))
    (ht : m'.LeavesAlone t) : Stream.expanded x m = (.ok (some t), m') := by
  refine loop_of_answer ?_
  unfold Stream.expandedRound
  rw [bind_of_ok h]
  dsimp only
  cases hv : t.value with
  | char category c => rfl
  | command ref =>
    dsimp only
    rw [get_bind_eval, ht ref hv, Bool.and_false, if_neg Bool.false_ne_true]
    rfl

theorem expanded_push {x : Expander} (hm : m.Readable) (ht : m.LeavesAlone t) (ts : List Token) :
    Stream.expanded x (m.push (t :: ts)) = (.ok (some t), m.push ts) :=
  expanded_of_leavesAlone (raw_push hm) ht

/-- Tokens in a region that are not expanded are given as they are. -/
theorem drain_inRegion {x : Expander} (hm : m.cancellation.raised = false)
    (hts : ∀ t ∈ ts, m.LeavesAlone t) :
    (Stream.expanded x).drain (m.inRegion { tokens := ts }) =
      (.ok ts, m.inRegion { tokens := [] }) := by
  have hinside : (m.inRegion { tokens := [] }).Readable := ⟨hm, List.cons_ne_nil _ _⟩
  have hend : Stream.expanded x (m.inRegion { tokens := [] }) =
      (.ok none, m.inRegion { tokens := [] }) := expanded_of_none (raw_inRegion_nil hm _)
  have hfold (sofar : List Token) :
      ts.foldl (fun (b : List Token) t => t :: b) sofar = ts.reverse ++ sofar :=
    List.foldl_flip_cons_eq_append'
  rw [inRegion_eq_push]
  unfold Stream.drain
  dsimp only
  rw [← List.append_nil ts, loop_push fun (b : List Token) t => t :: b]
  · rw [push_nil hinside, hfold]
    refine loop_of_answer ((bind_of_ok hend).trans ?_)
    simp
  · exact fun sofar t ht us => (bind_of_ok (expanded_push hinside (hts t ht) us)).trans rfl

/-- Tokens that are not expanded are not changed by full expansion. -/
theorem expandFully_eval {x : Expander} (hm : m.cancellation.raised = false)
    (hd : m.expansionDepth < m.config.maxExpansionDepth) {ts : List Token}
    (hts : ∀ t ∈ ts, Machine.LeavesAlone { m with fullExpansions := m.fullExpansions + 1 } t) :
    Stream.expandFully x ts m = (.ok ts, m) := by
  let shielded : Machine := { m with fullExpansions := m.fullExpansions + 1 }
  have hregion : region { tokens := ts } (Stream.expanded x).drain shielded = (.ok ts, shielded) :=
    region_eq_ok_iff.2 ⟨hd, _, drain_inRegion hm hts, (leaveRegion_inRegion shielded _).symm⟩
  exact shielding_eq_ok_iff.2 ⟨shielded, hregion, rfl⟩

/-- The text of a label that was put in front of the input is read again. -/
theorem label_push {x : Expander} (hm : m.Readable)
    (hd : m.expansionDepth < m.config.maxExpansionDepth) (name : String) (key : SourceKey)
    {opener closer : Token} (ho : opener.value.isBeginGroup = true)
    (hc : closer.value.isEndGroup = true) (rest : List Token) :
    Reader.label x (m.push (opener :: (Token.ofText name key ++ closer :: rest))) =
      (.ok (Text.trim name), m.push rest) := by
  have hplain := Token.isPlainText_ofText name key
  have hrest : (m.push rest).Readable := by
    refine ⟨hm.going, ?_⟩
    rcases Input.sources_pushAll m.input rest with ⟨-, h⟩ | ⟨s, below, -, h⟩
    · show (m.input.pushAll rest).sources ≠ []
      rw [h]
      exact List.cons_ne_nil _ _
    · show (m.input.pushAll rest).sources ≠ []
      rw [h]
      exact List.cons_ne_nil _ _
  have htext : Reader.labelText (Token.ofText name key) = Text.trim name := by
    unfold Reader.labelText
    rw [Token.join_spelling_ofText]
  unfold Reader.label
  have hchars (t : Token) (ht : t ∈ Token.ofText name key) (m : Machine) : m.LeavesAlone t := by
    intro ref href
    obtain ⟨⟨category, c, hv⟩, -⟩ := hplain t ht
    rw [hv] at href
    cases href
  rw [bind_of_ok (argument_push hm hplain ho hc rest),
    bind_of_ok (expandFully_eval hrest.going hd fun t ht => hchars t ht _), htext]
  rfl

end Run

end Gullet
