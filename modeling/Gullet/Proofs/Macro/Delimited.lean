import Mathlib.Data.Nat.Find
import Gullet.Proofs.Macro.Calling
import Gullet.Proofs.Macro.Nesting
import Gullet.Proofs.Stream.Remaining

/-!
# Where delimited arguments end

A delimited argument ends at the first place where the tokens that were read end with the delimiter, at the
depth of braces that belongs to the delimiter. Which places these are is said of the tokens alone. The
search for the delimiter never goes back and counts braces on its way, and still finds the first of them;
if there is none, it comes to the end of the input.
-/

namespace Gullet

open Lexer (Item)

/-! ### Arguments without their braces -/

/-- Of a single group in braces what is inside, and of any other text the text. -/
inductive Token.Bared : List Token → List Token → Prop where
  | group {opener closer : Token} {body : List Token} (ho : opener.value.isBeginGroup = true)
      (hc : closer.value.isEndGroup = true) (hbody : Balanced body) :
      Bared (opener :: (body ++ [closer])) body
  | other {ts : List Token} (hts : ¬ IsGroup ts) : Bared ts ts

/-- What does not end with a brace has none to lose. -/
theorem Token.Bared.eq_of_getLast? {ts argument : List Token} {last : Token} (h : Bared ts argument)
    (hlast : ts.getLast? = some last) (hc : last.value.isEndGroup = false) : argument = ts := by
  cases h with
  | @group opener closer body ho hcloser hbody =>
    rw [← List.cons_append, List.getLast?_concat, Option.some.injEq] at hlast
    rw [hlast, hc] at hcloser
    cases hcloser
  | other hts => rfl

theorem Token.Bared.eq_of_group {opener closer : Token} {body argument : List Token}
    (h : Bared (opener :: (body ++ [closer])) argument) (ho : opener.value.isBeginGroup = true)
    (hc : closer.value.isEndGroup = true) (hbody : Balanced body) : argument = body := by
  generalize hts : opener :: (body ++ [closer]) = ts at h
  cases h with
  | group =>
    obtain ⟨-, hinside⟩ := List.cons.inj hts
    exact (List.append_inj_left' hinside rfl).symm
  | other hgroup => exact absurd ⟨_, _, _, hts.symm, ho, hc, hbody⟩ hgroup

namespace Macro

variable {opener closer t : Token} {body ts read rest : List Token} {vs : List TokenValue}
  {m m' : Machine} {n number k : Nat}

theorem withoutBraces_of_group (ho : opener.value.isBeginGroup = true)
    (hc : closer.value.isEndGroup = true) (hbody : Token.Balanced body) :
    withoutBraces (opener :: (body ++ [closer])) = body := by
  have hearly : closesEarly 1 (body ++ [closer]) = false :=
    closesEarly_append hbody (List.cons_ne_nil _ _) 0
  cases body with
  | nil => simp [withoutBraces, ho, hc, closesEarly]
  | cons first body =>
    rw [List.cons_append] at hearly ⊢
    unfold withoutBraces
    rw [List.getLast?_cons_cons, ← List.cons_append, List.getLast?_concat]
    dsimp only [List.cons_append]
    rw [ho, hc, hearly, ← List.cons_append, List.dropLast_concat]
    rfl

/-- Where an argument ends at the depth at which it starts, its braces are cut off exactly if it is a single
group. -/
theorem bared_withoutBraces (hdepth : Token.depth ts = 0) : Token.Bared ts (withoutBraces ts) := by
  rcases withoutBraces_cases ts with hkept | ⟨opener, closer, hts, ho, hc, hopens⟩
  · rw [hkept]
    refine .other ?_
    rintro ⟨opener, body, closer, rfl, ho, hc, hbody⟩
    rw [withoutBraces_of_group ho hc hbody] at hkept
    have hlength := congrArg List.length hkept
    simp at hlength
    omega
  · have hinside : Token.depth (withoutBraces ts) = 0 := by
      rw [hts, Token.depth_cons, Token.depth_append, Token.depth_cons, depthChange_of_begin ho,
        depthChange_of_end hc, Token.depth_nil] at hdepth
      omega
    have hbared := Token.Bared.group ho hc (Token.balanced_of_opensFirst hinside hopens)
    rwa [← hts] at hbared

/-! ### Places where an argument can end -/

/-- An argument can end after the first `n` tokens: they end with the delimiter, and the number of braces
that open groups exceeds that of braces that close groups by one if the delimiter ends with a brace, and by
none if not. -/
structure EndsAt (vs : List TokenValue) (ts : List Token) (n : Nat) : Prop where
  le : n ≤ ts.length
  delimiter : vs <:+ (ts.take n).map Token.value
  depth : Token.depth (ts.take n) = if vs.getLast?.any TokenValue.isBeginGroup then 1 else 0

theorem closingDepth_eq (vs : List TokenValue) :
    closingDepth vs.toArray = if vs.getLast?.any TokenValue.isBeginGroup then 1 else 0 := by
  unfold closingDepth
  rw [List.back?_toArray]
  cases vs.getLast? with
  | none => rfl
  | some v =>
    cases v with
    | command ref => rfl
    | char category c => cases category <;> rfl

theorem endsAt_iff (hn : n ≤ ts.length) : EndsAt vs ts n ↔ Stops vs (ts.take n) := by
  rw [Stops, closingDepth_eq]
  exact ⟨fun h => ⟨h.delimiter, h.depth⟩, fun h => ⟨hn, h.1, h.2⟩⟩

/-- If an argument can end nowhere, the search comes to the end of the input. -/
theorem loop_delimited_ended (number : Nat) (hk : Matcher.Longest vs (read.map Token.value) vs.length k)
    (hnever : ∀ us, us <+: rest → us ≠ [] → ¬ Stops vs (read ++ us))
    (hraised : m.cancellation.raised = false) (hm : Input.Accounted m.input.sources)
    (h : m.remaining = rest.map .ok) :
    ∃ m', Run.loop (delimitedRound number (.ofList vs)) (Token.depth read, k, read.reverse) m =
      (.error (.failed (.ofFault m.atlas (.inputEnded (.delimitedArgument number vs.length)))), m') := by
  induction rest generalizing read k m with
  | nil =>
    obtain ⟨m', hraw, -, hsame⟩ := Stream.raw_of_remaining hraised
    rw [h] at hraw
    have hnext : Stream.raw.nextOr (.delimitedArgument number vs.length) m =
        (.error (.failed (.ofFault m.atlas (.inputEnded (.delimitedArgument number vs.length)))), m') := by
      have hatlas : m'.atlas = m.atlas := by
        rw [hsame]
      rw [← hatlas]
      exact Run.bind_of_ok hraw
    exact ⟨m', Run.loop_of_error (Run.bind_of_error hnext)⟩
  | cons t rest ih =>
    obtain ⟨m₁, hraw, htail, hsame⟩ := Stream.raw_of_remaining hraised
    rw [h] at hraw htail
    have ht : Stream.raw m = (.ok (some t), m₁) := hraw
    obtain ⟨k', hk', -, hgo⟩ := delimitedRound_eval number hk ht
    have hgoes : ¬ Stops vs (read ++ [t]) := hnever [t] (List.cons_prefix_cons.2 ⟨rfl, List.nil_prefix⟩)
      (List.cons_ne_nil _ _)
    have hlater (us : List Token) (hus : us <+: rest) (hne : us ≠ []) : ¬ Stops vs ((read ++ [t]) ++ us) := by
      rw [List.append_assoc]
      exact hnever (t :: us) (List.cons_prefix_cons.2 ⟨rfl, hus⟩) (List.cons_ne_nil _ _)
    have hatlas : m₁.atlas = m.atlas := by
      rw [hsame]
    rw [Run.loop_of_progress (hgo hgoes) (Run.progress_of_raw ht hm), ← hatlas]
    exact ih hk' hlater (hsame.raised.trans hraised) (Run.accounted_of_raw ht hm) htail

theorem delimitedArgument_ended (hne : vs ≠ []) (number : Nat)
    (hraised : m.cancellation.raised = false) (hm : Input.Accounted m.input.sources)
    (h : m.remaining = ts.map .ok) (hnever : ∀ n, ¬ EndsAt vs ts n) :
    ∃ m', delimitedArgument number (.ofList vs) m =
      (.error (.failed (.ofFault m.atlas (.inputEnded (.delimitedArgument number vs.length)))), m') := by
  have hstart : Matcher.Longest vs (([] : List Token).map Token.value) vs.length 0 :=
    Matcher.longest_nil hne
  have hnowhere (us : List Token) (hus : us <+: ts) (_ : us ≠ []) : ¬ Stops vs ([] ++ us) := by
    rw [List.nil_append, List.prefix_iff_eq_take.1 hus]
    exact fun hstops => hnever us.length ((endsAt_iff hus.length_le).2 hstops)
  obtain ⟨m', hloop⟩ := loop_delimited_ended number hstart hnowhere hraised hm h
  refine ⟨m', ?_⟩
  rw [delimitedArgument_eq]
  exact Run.bind_of_error hloop

theorem delimitedArgument_of_endsAt (hne : vs ≠ []) (hvs : TokenValue.IsDelimiter vs) (number : Nat)
    (hraised : m.cancellation.raised = false) (hm : Input.Accounted m.input.sources)
    {items : List Item} (h : m.remaining = ts.map .ok ++ items) (hends : EndsAt vs ts n)
    (hfirst : ∀ i < n, ¬ EndsAt vs ts i) :
    ∃ argument m', delimitedArgument number (.ofList vs) m = (.ok argument, m') ∧
      m'.remaining = (ts.drop n).map .ok ++ items ∧ m.SameButInput m' ∧
      Token.Bared (ts.take (n - vs.length)) argument := by
  have hsplit : m.remaining = (ts.take n).map .ok ++ ((ts.drop n).map .ok ++ items) := by
    rw [h, ← List.append_assoc, ← List.map_append, List.take_append_drop]
  obtain ⟨m', hsupplies, hrest, hsame⟩ := Stream.supplies_of_remaining hraised hsplit
  have hlength : (ts.take n).length = n := List.length_take_of_le hends.le
  have hstops := (endsAt_iff hends.le).1 hends
  have hleast (us : List Token) (hus : us <+: ts.take n) (hstops : Stops vs us) : us = ts.take n := by
    have hle := hlength ▸ hus.length_le
    rw [List.prefix_iff_eq_take.1 (hus.trans (List.take_prefix n ts))] at hstops
    have hearly := mt (hfirst us.length) (not_not_intro ((endsAt_iff (hle.trans hends.le)).2 hstops))
    exact hus.eq_of_length (by omega)
  have hread := delimitedArgument_eval number hne hstops hleast ⟨rfl, hm⟩ hsupplies
  have hargument : (ts.take n).take ((ts.take n).length - vs.length) = ts.take (n - vs.length) := by
    rw [hlength, List.take_take, Nat.min_eq_left (Nat.sub_le _ _)]
  rw [hargument] at hread
  refine ⟨_, m', hread, hrest, hsame, bared_withoutBraces ?_⟩
  -- the delimiter leads from the depth at its beginning to that at which it is found
  have hdelimiter : ((ts.take n).drop (n - vs.length)).map Token.value = vs := by
    have hsuffix := List.suffix_iff_eq_drop.1 hstops.1
    rw [List.length_map, hlength, ← List.map_drop] at hsuffix
    exact hsuffix.symm
  refine (opensFirst_append_delimiter hvs hne hdelimiter ?_).1
  rw [← hargument, hlength, List.take_append_drop]
  exact hstops.2

/-- **Where a delimited argument ends.** On a machine whose input starts with the tokens, the argument ends
at the first place where it can, and is what stands before the delimiter, without its braces if that is a
single group. If no other tokens follow, the search fails, at the end of the input, exactly if the argument
can end nowhere. -/
theorem delimitedArgument_first (hne : vs ≠ []) (hvs : TokenValue.IsDelimiter vs) (number : Nat)
    (hraised : m.cancellation.raised = false) (hm : Input.Accounted m.input.sources)
    {items : List Item} (h : m.remaining = ts.map .ok ++ items) :
    (∀ n, EndsAt vs ts n → (∀ i < n, ¬ EndsAt vs ts i) →
      ∃ argument m', delimitedArgument number (.ofList vs) m = (.ok argument, m') ∧
        m'.remaining = (ts.drop n).map .ok ++ items ∧ m.SameButInput m' ∧
        Token.Bared (ts.take (n - vs.length)) argument) ∧
    (items = [] → ((∃ m', delimitedArgument number (.ofList vs) m =
        (.error (.failed (.ofFault m.atlas (.inputEnded (.delimitedArgument number vs.length)))), m')) ↔
      ∀ n, ¬ EndsAt vs ts n)) := by
  refine ⟨fun n => delimitedArgument_of_endsAt hne hvs number hraised hm h,
    fun hitems => ⟨?_, fun hnever => ?_⟩⟩
  · rintro ⟨m', hfails⟩ n hends
    classical
    have hexists : ∃ n, EndsAt vs ts n := ⟨n, hends⟩
    obtain ⟨argument, m₁, hread, -⟩ := delimitedArgument_of_endsAt hne hvs number hraised hm h
      (Nat.find_spec hexists) fun i hi => Nat.find_min hexists hi
    cases hfails.symm.trans hread
  · rw [hitems, List.append_nil] at h
    exact delimitedArgument_ended hne number hraised hm h hnever

/-- With the delimiter `aab`, the argument in `{aab}aaabc` is `{aab}a`, and in `{aab}aa` there is none. -/
theorem delimitedArgument_first_overlapping :
    let letter (c : Char) : Token := Definition.letter c
    let vs : List TokenValue := [(letter 'a').value, (letter 'a').value, (letter 'b').value]
    let group : List Token := Definition.inBraces [letter 'a', letter 'a', letter 'b']
    (∃ m', delimitedArgument 1 (.ofList vs)
        (Machine.ready.push (group ++ [letter 'a', letter 'a', letter 'a', letter 'b', letter 'c'])) =
          (.ok (group ++ [letter 'a']), m') ∧ m'.remaining = [.ok (letter 'c')]) ∧
      ∃ d m', delimitedArgument 1 (.ofList vs)
        (Machine.ready.push (group ++ [letter 'a', letter 'a'])) = (.error (.failed d), m') := by
  intro letter vs group
  have hvs : TokenValue.IsDelimiter vs := ⟨by decide, by decide⟩
  have hremaining (ts : List Token) : (Machine.ready.push ts).remaining = ts.map .ok ++ [] := by
    rw [Machine.remaining_push]
    rfl
  have hends (ts : List Token) (n : Nat) : EndsAt vs ts n ↔ n ≤ ts.length ∧
      vs <:+ (ts.take n).map Token.value ∧ Token.depth (ts.take n) = 0 :=
    ⟨fun h => ⟨h.le, h.delimiter, h.depth⟩, fun h => ⟨h.1, h.2.1, h.2.2⟩⟩
  constructor
  · let ts : List Token := group ++ [letter 'a', letter 'a', letter 'a', letter 'b', letter 'c']
    have hearly : ∀ i < 9, ¬ (i ≤ ts.length ∧ vs <:+ (ts.take i).map Token.value ∧
        Token.depth (ts.take i) = 0) := by
      decide
    obtain ⟨hread, -⟩ := delimitedArgument_first (List.cons_ne_nil _ _) hvs 1 rfl
      (Machine.accounted_ready _) (hremaining ts)
    obtain ⟨argument, m', hread, hrest, -, hbared⟩ := hread 9 ((hends ts 9).2 (by decide))
      fun i hi h => hearly i hi ((hends ts i).1 h)
    have hlast : (ts.take 6).getLast? = some (letter 'a') := rfl
    rw [hbared.eq_of_getLast? hlast rfl] at hread
    exact ⟨m', hread, hrest⟩
  · let ts : List Token := group ++ [letter 'a', letter 'a']
    have hnever : ∀ i < 8, ¬ (i ≤ ts.length ∧ vs <:+ (ts.take i).map Token.value ∧
        Token.depth (ts.take i) = 0) := by
      decide
    obtain ⟨-, hfails⟩ := delimitedArgument_first (List.cons_ne_nil _ _) hvs 1 rfl
      (Machine.accounted_ready _) (hremaining ts)
    obtain ⟨m', hfails⟩ := (hfails rfl).2 fun n h =>
      hnever n (Nat.lt_succ_of_le h.le) ((hends ts n).1 h)
    exact ⟨_, m', hfails⟩

end Macro

end Gullet
