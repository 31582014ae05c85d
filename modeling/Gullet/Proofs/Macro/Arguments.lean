import Gullet.Proofs.Macro.Delimited

/-!
# Arguments as they are written

An argument without a delimiter is a token or a group in braces, after any number of spaces. An argument in
brackets ends at the first closing bracket outside braces. Arguments that are written so are read as they
are written, by macros and by the commands that define macros.
-/

namespace Gullet

variable {b : Bindings} {t : Token} {ts spaces piece : List Token} {m m' m₁ : Machine}

namespace Token

/-- The tokens are an argument as it is written without a delimiter, and what it is. -/
inductive Undelimited : List Token → List Token → Prop where
  | token {spaces : List Token} {t : Token} (hspaces : ∀ s ∈ spaces, s.value.isSpace = true)
      (hspace : t.value.isSpace = false) (hto : t.value.isBeginGroup = false)
      (htc : t.value.isEndGroup = false) : Undelimited (spaces ++ [t]) [t]
  | group {spaces : List Token} {opener closer : Token} {body : List Token}
      (hspaces : ∀ s ∈ spaces, s.value.isSpace = true) (ho : opener.value.isBeginGroup = true)
      (hc : closer.value.isEndGroup = true) (hbody : Balanced body) :
      Undelimited (spaces ++ opener :: (body ++ [closer])) body

/-! No spaces have to come first. -/

theorem Undelimited.ofToken {t : Token} (hspace : t.value.isSpace = false)
    (hto : t.value.isBeginGroup = false) (htc : t.value.isEndGroup = false) : Undelimited [t] [t] :=
  @Undelimited.token [] t (List.forall_mem_nil _) hspace hto htc

theorem Undelimited.ofGroup {opener closer : Token} {body : List Token}
    (ho : opener.value.isBeginGroup = true) (hc : closer.value.isEndGroup = true) (hbody : Balanced body) :
    Undelimited (opener :: (body ++ [closer])) body :=
  @Undelimited.group [] opener closer body (List.forall_mem_nil _) ho hc hbody

/-- The value occurs in braces only. -/
def OnlyInBraces (v : TokenValue) (ts : List Token) : Prop :=
  ∀ us t rest, ts = us ++ t :: rest → t.value = v → depth us ≠ 0

/-- The value of a bracket that ends an argument. -/
abbrev closingBracket : TokenValue := .char .other ']'

/-- The tokens are an argument as it is written in brackets, and what it is. -/
inductive Bracketed : List Token → List Token → Prop where
  | intro {left right : Token} {ts : List Token} (hl : left.value = .char .other '[')
      (hr : right.value = closingBracket) (hts : Balanced ts) (hfree : OnlyInBraces closingBracket ts) :
      Bracketed (left :: (ts ++ [right])) ts

theorem Bracketed.balanced {piece ts : List Token} (h : Bracketed piece ts) : Balanced ts := by
  cases h with
  | intro _ _ hts _ => exact hts

theorem onlyInBraces_of_ne {v : TokenValue} {ts : List Token} (h : ∀ t ∈ ts, t.value ≠ v) :
    OnlyInBraces v ts := by
  rintro us t rest rfl hv
  exact absurd hv (h t (by simp))

theorem OnlyInBraces.of_append {v : TokenValue} {us ts : List Token} (h : OnlyInBraces v (us ++ ts))
    (hus : depth us = 0) : OnlyInBraces v ts := by
  intro us' t rest hts hv hdepth
  refine h (us ++ us') t rest (by rw [hts, List.append_assoc]) hv ?_
  rw [depth_append, hus, hdepth]
  rfl

/-- What is no brace stands in braces everywhere in a group. -/
theorem onlyInBraces_group {v : TokenValue} {opener closer : Token} (hvo : v.isBeginGroup = false)
    (hvc : v.isEndGroup = false) (ho : opener.value.isBeginGroup = true)
    (hc : closer.value.isEndGroup = true) (hts : Balanced ts) :
    OnlyInBraces v (opener :: (ts ++ [closer])) := by
  rintro us t rest hsplit rfl
  cases us with
  | nil =>
    obtain ⟨rfl, -⟩ := List.cons.inj hsplit
    rw [ho] at hvo
    cases hvo
  | cons u us =>
    obtain ⟨rfl, hinside⟩ := List.cons.inj hsplit
    have hprefix : us ++ [t] <+: ts ++ [closer] := ⟨rest, by simp [hinside]⟩
    rcases List.prefix_concat_iff.1 hprefix with heq | hprefix
    · obtain ⟨-, heq⟩ := List.append_inj' heq rfl
      obtain rfl := List.singleton_inj.1 heq
      rw [hc] at hvc
      cases hvc
    · have hnonneg := opensFirst_of_balanced hts us ((List.prefix_append us [t]).trans hprefix)
      rw [depth_cons, Macro.depthChange_of_begin ho]
      omega

end Token

/-! ### Spaces -/

namespace Run

theorem skipSpaces_of_spaces (hspaces : ∀ s ∈ spaces, s.value.isSpace = true) (hm : m.Steady b)
    (h : Stream.raw.Supplies spaces m m') : Stream.raw.skipSpaces m = Stream.raw.skipSpaces m' :=
  skipSpaces_over hspaces (Stream.feeds_of_raw (fun _ _ _ _ h => h) hm h)

theorem nextNonSpace_of_spaces (hspaces : ∀ s ∈ spaces, s.value.isSpace = true) (hm : m.Steady b)
    (h : Stream.raw.Supplies spaces m m') (during : Activity) :
    Stream.raw.nextNonSpace during m = Stream.raw.nextNonSpace during m' := by
  refine loop_over (fun _ _ => ()) (fun t ht _ m m' hread => ?_)
    (Stream.feeds_of_raw (fun _ _ _ _ h => h) hm h) ()
  rw [bind_of_ok (nextOr_of_some hread during), hspaces t ht]
  rfl

end Run

/-! ### Arguments without delimiters -/

theorem Macro.undelimitedArgument_of_undelimited (number : Nat) (h : Token.Undelimited piece ts)
    (hm : m.Steady b) (hs : Stream.raw.Supplies piece m m') :
    undelimitedArgument number m = (.ok ts, m') := by
  cases h with
  | token hspaces hspace hto htc =>
    obtain ⟨m₁, hskip, ht⟩ := Stream.supplies_append.1 hs
    have hnext := Run.nextNonSpace_of_some (Stream.supplies_singleton.1 ht) hspace
      (.undelimitedArgument number)
    rw [← Run.nextNonSpace_of_spaces hspaces hm hskip] at hnext
    unfold undelimitedArgument
    rw [Run.bind_of_ok hnext, hto]
    rfl
  | group hspaces ho hc hbody =>
    obtain ⟨m₁, hskip, hgroup⟩ := Stream.supplies_append.1 hs
    have hread := undelimitedArgument_eval number ho hc hbody (hm.supplies hskip) hgroup
    unfold undelimitedArgument at hread ⊢
    rw [Run.bind_eval, Run.nextNonSpace_of_spaces hspaces hm hskip, ← Run.bind_eval]
    exact hread

theorem Macro.readArguments_of_undelimited (number : Nat) {pieces arguments : List (List Token)}
    (h : List.Forall₂ Token.Undelimited pieces arguments) (hm : m.Steady b)
    (hs : Stream.raw.Supplies pieces.flatten m m') :
    readArguments number (List.replicate arguments.length .undelimited) m = (.ok arguments, m') := by
  induction h generalizing number m with
  | nil =>
    obtain rfl : m = m' := hs
    rfl
  | @cons piece argument pieces arguments hfirst _ ih =>
    obtain ⟨m₁, hpiece, hrest⟩ := Stream.supplies_append.1 hs
    have hread : readArgument number .undelimited m = (.ok argument, m₁) :=
      undelimitedArgument_of_undelimited number hfirst hm hpiece
    rw [List.length_cons, List.replicate_succ, readArguments_cons, Run.bind_of_ok hread,
      Run.bind_of_ok (ih (number + 1) (hm.supplies hpiece) hrest)]
    rfl

namespace Reader

theorem argument_of_undelimited (h : Token.Undelimited piece ts) (hm : m.Steady b)
    (hs : Stream.raw.Supplies piece m m') : argument m = (.ok ts, m') := by
  cases h with
  | token hspaces hspace hto htc =>
    obtain ⟨m₁, hskip, ht⟩ := Stream.supplies_append.1 hs
    have ht := Stream.supplies_singleton.1 ht
    have hskips := (Run.skipSpaces_of_spaces hspaces hm hskip).trans (Run.skipSpaces_of_some ht hspace)
    unfold argument
    rw [Run.bind_of_ok hskips, Run.bind_of_ok (Run.nextOr_of_some (Run.raw_of_pushBack ht) _), hto, htc]
    rfl
  | @group _ opener closer body hspaces ho hc hbody =>
    obtain ⟨m₁, hskip, m₂, hopener, hgroup⟩ := Stream.supplies_append.1 hs
    have hspace := (TokenValue.category_of_isBeginGroup ho).2
    have hskips := (Run.skipSpaces_of_spaces hspaces hm hskip).trans (Run.skipSpaces_of_some hopener hspace)
    unfold argument
    rw [Run.bind_of_ok hskips, Run.bind_of_ok (Run.nextOr_of_some (Run.raw_of_pushBack hopener) _),
      if_pos ho]
    exact finishBalanced_eval hbody hc ((hm.supplies hskip).raw hopener) hgroup

/-- Where an argument comes next, and no modifier, only the spaces in front of it are taken. -/
theorem modifier_of_undelimited {c : Char} (h : Token.Undelimited piece ts)
    (hc : ∀ t, ts = [t] → t.value ≠ .char .other c ∧ t.value ≠ .char .letter c) (hm : m.Steady b)
    (hs : Stream.raw.Supplies piece m m') :
    ∃ piece' m₁, modifier c m = (.ok false, m₁) ∧ m₁.Steady b ∧ Token.Undelimited piece' ts ∧
      Stream.raw.Supplies piece' m₁ m' := by
  -- the token that is looked at and put back
  have hlooks {t : Token} {m₁ m₂ : Machine} {spaces : List Token}
      (hspaces : ∀ s ∈ spaces, s.value.isSpace = true) (hskip : Stream.raw.Supplies spaces m m₁)
      (ht : Stream.raw m₁ = (.ok (some t), m₂)) (hspace : t.value.isSpace = false)
      (hne : t.value ≠ .char .other c ∧ t.value ≠ .char .letter c) :
      modifier c m = (.ok false, m₂.push [t]) := by
    have hskips := (Run.skipSpaces_of_spaces hspaces hm hskip).trans (Run.skipSpaces_of_some ht hspace)
    unfold modifier
    rw [Run.bind_of_ok hskips, Run.bind_of_ok (Run.take?_of_none (Run.raw_of_pushBack ht) ?_)]
    · rfl
    · exact if_neg (by simp [hne.1, hne.2])
  have hsteady {t : Token} {m₁ m₂ : Machine} {spaces : List Token}
      (hskip : Stream.raw.Supplies spaces m m₁) (ht : Stream.raw m₁ = (.ok (some t), m₂)) :
      (m₂.push [t]).Steady b :=
    have hm₂ := (hm.supplies hskip).raw ht
    ⟨hm₂.bindings, Input.accounted_pushAll hm₂.accounted [t]⟩
  cases h with
  | @token _ t hspaces hspace hto htc =>
    obtain ⟨m₁, hskip, ht⟩ := Stream.supplies_append.1 hs
    have ht := Stream.supplies_singleton.1 ht
    exact ⟨[t], _, hlooks hspaces hskip ht hspace (hc t rfl), hsteady hskip ht,
      .ofToken hspace hto htc,
      Stream.supplies_singleton.2 (Run.raw_of_pushBack ht)⟩
  | @group _ opener closer body hspaces ho hcloser hbody =>
    obtain ⟨m₁, hskip, m₂, hopener, hgroup⟩ := Stream.supplies_append.1 hs
    have hne (category : CharCategory) (hcategory : category ≠ .beginGroup) :
        opener.value ≠ .char category c := by
      intro hv
      rw [hv] at ho
      cases category <;> first | exact hcategory rfl | cases ho
    exact ⟨_, _, hlooks hspaces hskip hopener (TokenValue.category_of_isBeginGroup ho).2
        ⟨hne .other (by decide), hne .letter (by decide)⟩, hsteady hskip hopener,
      .ofGroup ho hcloser hbody,
      ⟨m₂, Run.raw_of_pushBack hopener, hgroup⟩⟩

/-! ### Arguments in brackets -/

/-- One round of reading an argument in brackets. -/
def optionalRound (b : Nat × List Token) : Run ((Nat × List Token) ⊕ List Token) := do
  let t ← Stream.raw.nextOr .optionalArgument
  if t.value.isBeginGroup then return .inl (b.1 + 1, t :: b.2)
  else if t.value.isEndGroup then
    match b.1 with
    | 0 => Run.fail (.endGroupInOptional t)
    | depth + 1 => return .inl (depth, t :: b.2)
  else if b.1 = 0 && t.value = .char .other ']' then return .inr b.2.reverse
  else return .inl (b.1, t :: b.2)

theorem optionalArgument_eq :
    optionalArgument = (do
      if ← takeOther '[' then some <$> Run.loop optionalRound (0, []) else return none) := rfl

variable {depth : Nat} {sofar : List Token}

theorem optionalRound_begin (h : Stream.raw m = (.ok (some t), m'))
    (ho : t.value.isBeginGroup = true) :
    optionalRound (depth, sofar) m = (.ok (.inl (depth + 1, t :: sofar)), m') := by
  unfold optionalRound
  rw [Run.bind_of_ok (Run.nextOr_of_some h _), if_pos ho]
  rfl

theorem optionalRound_end (h : Stream.raw m = (.ok (some t), m')) (hc : t.value.isEndGroup = true) :
    optionalRound (depth + 1, sofar) m = (.ok (.inl (depth, t :: sofar)), m') := by
  unfold optionalRound
  rw [Run.bind_of_ok (Run.nextOr_of_some h _), TokenValue.isBeginGroup_of_isEndGroup hc, hc]
  rfl

theorem optionalRound_close (h : Stream.raw m = (.ok (some t), m')) (hv : t.value = Token.closingBracket) :
    optionalRound (0, sofar) m = (.ok (.inr sofar.reverse), m') := by
  unfold optionalRound
  rw [Run.bind_of_ok (Run.nextOr_of_some h _), hv]
  rfl

theorem optionalRound_token (h : Stream.raw m = (.ok (some t), m'))
    (hto : t.value.isBeginGroup = false) (htc : t.value.isEndGroup = false)
    (hne : depth = 0 → t.value ≠ Token.closingBracket) :
    optionalRound (depth, sofar) m = (.ok (.inl (depth, t :: sofar)), m') := by
  have hclose : ¬ (decide (depth = 0) && decide (t.value = .char .other ']')) = true := by
    simpa using hne
  unfold optionalRound
  rw [Run.bind_of_ok (Run.nextOr_of_some h _), hto, htc, if_neg Bool.false_ne_true,
    if_neg Bool.false_ne_true, if_neg hclose]
  rfl

/-- Balanced text in which brackets that close stand in braces only is read as it is. -/
theorem loop_optional (hts : Token.Balanced ts)
    (hfree : depth = 0 → Token.OnlyInBraces Token.closingBracket ts) (hm : m.Steady b)
    (h : Stream.raw.Supplies ts m m') :
    Run.loop optionalRound (depth, sofar) m = Run.loop optionalRound (depth, ts.reverse ++ sofar) m' := by
  induction hts generalizing depth sofar m m' with
  | nil =>
    obtain rfl : m = m' := h
    rfl
  | @token t ts hto htc _ ih =>
    obtain ⟨m₁, ht, hrest⟩ := h
    have hne (hdepth : depth = 0) : t.value ≠ Token.closingBracket :=
      fun hv => hfree hdepth [] t ts rfl hv rfl
    have hzero : Token.depth [t] = 0 := by
      rw [Token.depth_cons, Macro.depthChange_of_none hto htc]
      rfl
    have hrest' (hdepth : depth = 0) : Token.OnlyInBraces Token.closingBracket ts :=
      Token.OnlyInBraces.of_append (hfree hdepth : Token.OnlyInBraces _ ([t] ++ ts)) hzero
    rw [Run.loop_of_progress (optionalRound_token ht hto htc hne) (Run.progress_of_raw ht hm.accounted),
      ih hrest' (hm.raw ht) hrest]
    simp
  | @group opener closer body ts ho hc hbody _ ihbody ih =>
    obtain ⟨m₁, hopener, h⟩ := h
    obtain ⟨m₂, hbody', m₃, hcloser, hrest⟩ := Stream.supplies_append.1 h
    have hm₁ := hm.raw hopener
    have hm₂ := hm₁.supplies hbody'
    have hzero : Token.depth (opener :: (body ++ [closer])) = 0 :=
      Token.depth_of_balanced (.group ho hc hbody .nil)
    have hfree' (hdepth : depth = 0) : Token.OnlyInBraces Token.closingBracket ts := by
      have happend : opener :: (body ++ closer :: ts) = (opener :: (body ++ [closer])) ++ ts := by simp
      exact (happend ▸ hfree hdepth).of_append hzero
    rw [Run.loop_of_progress (optionalRound_begin hopener ho) (Run.progress_of_raw hopener hm.accounted),
      ihbody (fun hdepth => absurd hdepth (Nat.succ_ne_zero depth)) hm₁ hbody',
      Run.loop_of_progress (optionalRound_end hcloser hc) (Run.progress_of_raw hcloser hm₂.accounted),
      ih hfree' (hm₂.raw hcloser) hrest]
    simp

theorem optionalArgument_of_bracketed (h : Token.Bracketed piece ts) (hm : m.Steady b)
    (hs : Stream.raw.Supplies piece m m') : optionalArgument m = (.ok (some ts), m') := by
  cases h with
  | @intro left right ts hl hr hts hfree =>
    obtain ⟨m₁, hleft, hrest⟩ := hs
    obtain ⟨m₂, hinside, hright⟩ := Stream.supplies_append.1 hrest
    have hspace : left.value.isSpace = false := by
      rw [hl]
      rfl
    have htake : takeOther '[' m = (.ok true, m₁) := by
      unfold takeOther
      rw [Run.bind_of_ok (Run.skipSpaces_of_some hleft hspace),
        Run.bind_of_ok (Run.take?_of_some (Run.raw_of_pushBack hleft) (if_pos hl))]
      rfl
    have hloop : Run.loop optionalRound (0, []) m₁ = (.ok ts, m') := by
      rw [loop_optional hts (fun _ => hfree) (hm.raw hleft) hinside,
        Run.loop_of_answer (optionalRound_close (Stream.supplies_singleton.1 hright) hr)]
      simp
    rw [optionalArgument_eq, Run.bind_of_ok htake, if_pos rfl, Run.map_eval, hloop]
    rfl

end Reader

/-- An argument in brackets is found by its closing bracket. -/
theorem Macro.delimitedArgument_of_bracketed (number : Nat) {left : Token}
    (h : Token.Bracketed (left :: piece) ts) (hm : m.Steady b) (hs : Stream.raw.Supplies piece m m') :
    delimitedArgument number (.ofList [Token.closingBracket]) m = (.ok (withoutBraces ts), m') := by
  generalize hpiece : left :: piece = written at h
  cases h with
  | @intro left' right ts hl hr hts hfree =>
    obtain ⟨-, rfl⟩ := List.cons.inj hpiece
    have hdepth : Token.depth (ts ++ [right]) = 0 := by
      rw [Token.depth_append, Token.depth_of_balanced hts, Token.depth_cons, hr]
      rfl
    have hstops : Stops [Token.closingBracket] (ts ++ [right]) := by
      refine ⟨?_, hdepth⟩
      rw [List.map_append, List.map_singleton, hr]
      exact List.suffix_append _ _
    -- before the last bracket none stands outside braces
    have hfirst (us : List Token) (hus : us <+: ts ++ [right]) (hu : Stops [Token.closingBracket] us) :
        us = ts ++ [right] := by
      rcases List.prefix_concat_iff.1 hus with heq | ⟨rest, rfl⟩
      · exact heq
      obtain ⟨before, hbefore⟩ := hu.1
      obtain ⟨us, last, rfl, -, hlast⟩ := List.map_eq_append_iff.1 hbefore.symm
      obtain ⟨t, rfl, hv⟩ := List.map_eq_singleton_iff.1 hlast
      have hend := hu.2
      rw [Token.depth_append, Token.depth_cons, hv] at hend
      have hzero : Token.depth us + 0 = 0 := hend
      exact absurd ((Int.add_zero _).symm.trans hzero) (hfree us t rest (by simp) hv)
    have hread := delimitedArgument_eval number (List.cons_ne_nil _ _) hstops hfirst hm hs
    rwa [List.length_append, List.length_singleton, List.length_singleton, Nat.add_sub_cancel,
      List.take_left] at hread

end Gullet
