import Gullet.Proofs.Taking.Readers
import Gullet.Expansion.File

/-!
# What readers of arguments take

An argument is put in front of the input again by some commands, and so is the text of a label. So it
matters what was taken for them.
-/

namespace Gullet

/-- The tokens give an argument: balanced text in braces, or a single token that is no brace. -/
inductive IsArgument : (ts body : List Token) → Prop where
  | group (before : List Token) {opener closer : Token} (body : List Token)
      (ho : opener.value.isBeginGroup = true) (hc : closer.value.isEndGroup = true) :
      IsArgument (before ++ opener :: (body ++ [closer])) body
  | single (before : List Token) {t : Token} (ho : t.value.isBeginGroup = false)
      (hc : t.value.isEndGroup = false) : IsArgument (before ++ [t]) [t]

/-- The tokens give a label of which the text is `name`. -/
def IsLabel (ts : List Token) (name : String) : Prop :=
  ∃ body, IsArgument ts body ∧ Reader.labelText body = name

theorem IsArgument.append {ts body : List Token} (h : IsArgument ts body) (before : List Token) :
    IsArgument (before ++ ts) body := by
  cases h with
  | group inner body ho hc =>
    rw [← List.append_assoc]
    exact .group _ body ho hc
  | single inner ho hc =>
    rw [← List.append_assoc]
    exact .single _ ho hc

namespace Run

variable {levels : Nat} {s : Stream} {x : Expander}

/-! ### Balanced text -/

theorem consumes_balanced (hs : s.Takes levels) :
    (Reader.balanced s).Consumes levels fun r ts =>
      r.1 = true → ∃ closer : Token, closer.value.isEndGroup = true ∧ ts = r.2 ++ [closer] := by
  -- what has been taken is what has been collected, up to the closing brace of the argument
  refine Consumes.loop (I := fun state us => us = state.2.reverse) ?_ rfl
  rintro ⟨depth, sofar⟩ us rfl
  refine (consumes_stream hs).bind ?_
  rintro r _ rfl
  cases r with
  | none => exact consumes_pure fun h => by cases h
  | some t =>
    have hnext : [t] ++ [] ≠ ([] : List Token) ∧
        sofar.reverse ++ ([t] ++ []) = (t :: sofar).reverse :=
      ⟨List.cons_ne_nil t [], by rw [List.append_nil, List.reverse_cons]⟩
    dsimp only
    split
    · exact consumes_pure hnext
    · split
      case isTrue hc =>
        cases depth with
        | zero => exact consumes_pure fun _ => ⟨t, hc, rfl⟩
        | succ depth => exact consumes_pure hnext
      case isFalse => exact consumes_pure hnext

theorem consumes_finishBalanced (hs : s.Takes levels) (opener : Token) :
    (Reader.finishBalanced s opener).Consumes levels fun body ts =>
      ∃ closer : Token, closer.value.isEndGroup = true ∧ ts = body ++ [closer] := by
  refine (consumes_balanced hs).bind ?_
  rintro ⟨complete, body⟩ ts hts
  cases complete with
  | false => exact consumes_fail _
  | true => exact consumes_pure (by simpa using hts rfl)

theorem spends_finishBalanced (hs : s.Takes levels) (opener : Token) :
    (Reader.finishBalanced s opener).Spends levels := (consumes_finishBalanced hs opener).spends

/-! ### Arguments -/

/-- **What is taken for an argument gives this argument.** -/
theorem consumes_argument : Reader.argument.Consumes levels fun body ts => IsArgument ts body := by
  refine Consumes.bind (spends_skipSpaces takes_raw) fun _ before _ => ?_
  refine (consumes_nextOr takes_raw _).bind ?_
  rintro t _ rfl
  split
  case isTrue ho =>
    refine (consumes_finishBalanced takes_raw t).mono ?_
    rintro body _ ⟨closer, hc, rfl⟩
    exact .group before body ho hc
  case isFalse ho =>
    split
    case isTrue => exact consumes_fail _
    case isFalse hc =>
      exact consumes_pure (.single before (eq_false_of_ne_true ho)
        (eq_false_of_ne_true hc))

theorem spends_argument : Reader.argument.Spends levels := consumes_argument.spends

theorem spends_takeOther (c : Char) : (Reader.takeOther c).Spends levels :=
  (spends_skipSpaces takes_raw).bind fun _ =>
    (consumes_take?_ne_nil takes_raw _).spends.bind fun _ => spends_pure _

theorem spends_optionalArgument : Reader.optionalArgument.Spends levels := by
  refine (spends_takeOther '[').bind fun found => ?_
  cases found with
  | false => exact spends_pure _
  | true =>
    refine Spends.map _ (.loop_of_bind (consumes_nextOr_ne_nil takes_raw _) (fun b t => ?_) _)
    obtain ⟨depth, sofar⟩ := b
    dsimp only
    split
    · exact spends_pure _
    · split
      · cases depth with
        | zero => exact spends_fail _
        | succ depth => exact spends_pure _
      · split
        · exact spends_pure _
        · exact spends_pure _

/-- **What is taken for a label is a label with its text.** If something is expanded, any tokens may
have been taken; those of the result will do. -/
theorem consumes_label (hx : x.Counts levels) :
    (Reader.label x).Consumes levels fun name ts => IsLabel ts name := by
  intro m hready
  refine (consumes_argument m hready).bind ?_
  rintro body m' ⟨ts, hbody, htook⟩
  refine (ensures_expandFully hx body (hready.of_continues htook.continues)).bind ?_
  rintro r m'' ⟨htook', hr⟩
  refine ensures_pure ?_
  rcases htook'.input with hlt | ⟨heq, -⟩
  · have hgroup : IsArgument (.char .beginGroup '\x7b' none :: (r ++ [.char .endGroup '\x7d' none])) r :=
      .group [] r rfl rfl
    exact ⟨_, ⟨r, hgroup, rfl⟩, htook.then_lt htook'.continues hlt _⟩
  · obtain rfl := hr heq
    refine ⟨ts, ⟨r, hbody, rfl⟩, ?_⟩
    rw [← List.append_nil ts]
    exact htook.trans htook'

theorem spends_label (hx : x.Counts levels) : (Reader.label x).Spends levels := (consumes_label hx).spends

theorem spends_modifier (c : Char) : (Reader.modifier c).Spends levels :=
  (spends_skipSpaces takes_raw).bind fun _ =>
    (consumes_take?_ne_nil takes_raw _).spends.bind fun _ => spends_pure _

theorem spends_object (hx : x.Counts levels) : (Reader.object x).Spends levels := by
  refine (spends_stream (takes_expanded hx)).bind fun r => ?_
  cases r with
  | none => exact spends_pure _
  | some t =>
    dsimp only
    split
    · refine Spends.bind (.loop_of_bind (consumes_nextOr_ne_nil takes_raw _) (fun b t => ?_) _)
        fun _ => spends_pure _
      obtain ⟨depth, sofar⟩ := b
      dsimp only
      split
      · exact spends_pure _
      · split
        · cases depth with
          | zero => exact spends_pure _
          | succ depth => exact spends_pure _
        · exact spends_pure _
    · exact spends_pure _

theorem spends_tokenList (hx : x.Counts levels) : (Reader.tokenList x).Spends levels := by
  refine (spends_nextNonSpace (takes_expanded hx) _).bind fun t => ?_
  dsimp only
  split
  · exact spends_finishBalanced takes_raw t
  · exact spends_fail _
  · refine (stays_lookup _).consumes_bind fun command => ?_
    split
    · refine (spends_variableOf hx t _).bind fun v => ?_
      cases v with
      | tokenList index => exact .get_bind fun _ => spends_pure _
      | _ => exact spends_fail _
    · exact spends_fail _

theorem spends_commandRef : Reader.commandRef.Spends levels := by
  refine (spends_skipSpaces takes_raw).bind fun _ => (spends_stream takes_raw).bind fun r => ?_
  cases r with
  | none => exact spends_fail _
  | some t =>
    dsimp only
    split
    · exact spends_pure _
    · exact spends_fail _

theorem spends_fileName (hx : x.Counts levels) : (Inclusion.fileName x).Spends levels := by
  refine (spends_skipSpaces takes_raw).bind fun _ => (consumes_peek takes_raw).spends.bind fun next => ?_
  split
  · exact spends_label hx
  · refine .loop (fun sofar => consumes_of_takes fun m₀ => ?_) _
    refine (consumes_stream (takes_expanded hx)).takes_bind ?_
    rintro r _ rfl
    cases r with
    | none => exact takes_pure fun h => nomatch h
    | some t =>
      dsimp only
      split
      · exact takes_pure fun _ => List.cons_ne_nil t []
      · exact takes_pure fun _ => List.cons_ne_nil t []
      · exact takes_pure fun h => nomatch h
      · exact (takes_pushBack t).bind fun _ _ _ => takes_pure fun h => nomatch h

end Run

end Gullet
