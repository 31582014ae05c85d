import Gullet.Proofs.Macro.Calling
import Gullet.Proofs.Macro.Nesting
import Gullet.Proofs.Run.Looping
import Gullet.Proofs.Session.Arising

/-!
# What calls collect

Whatever stands in the input, a call that succeeds has read the tokens that must follow the name, and then
one piece of the input for each argument. An argument is balanced unless its piece closes a group that it
has not opened: a closing brace that stands alone is taken for an argument, and what is read up to a
delimiter can close a group first and open another one afterwards.
-/

namespace Gullet

open Token

variable {m m' : Machine} {t : Token} {ts : List Token}

namespace Stream

variable {s : Stream} {during : Activity}

theorem some_of_nextOr (h : s.nextOr during m = (.ok t, m')) : s m = (.ok (some t), m') := by
  obtain ⟨next, m₁, hnext, h⟩ := Run.exists_of_bind_eq_ok h
  cases next with
  | none => cases h
  | some t' =>
    cases h
    exact hnext

/-- Before a token that is no space there are spaces. -/
theorem supplies_of_nextNonSpace (h : s.nextNonSpace during m = (.ok t, m')) :
    ∃ spaces, (∀ u ∈ spaces, u.value.isSpace = true) ∧ s.Supplies (spaces ++ [t]) m m' := by
  refine Run.of_loop_eq_ok
    (fun _ m₁ => ∃ spaces, (∀ u ∈ spaces, u.value.isSpace = true) ∧ s.Supplies spaces m m₁)
    (fun t m₁ => ∃ spaces, (∀ u ∈ spaces, u.value.isSpace = true) ∧ s.Supplies (spaces ++ [t]) m m₁)
    ?_ ⟨[], List.forall_mem_nil _, rfl⟩ h
  rintro _ r m₁ m₂ ⟨spaces, hspaces, hsupplies⟩ hround
  obtain ⟨u, m₃, hu, hround⟩ := Run.exists_of_bind_eq_ok hround
  have hread := hsupplies.concat (some_of_nextOr hu)
  split at hround
  · rename_i hspace
    cases hround
    refine ⟨spaces ++ [u], fun v hv => ?_, hread⟩
    rcases List.mem_append.1 hv with hv | hv
    · exact hspaces v hv
    · rw [List.mem_singleton.1 hv]
      exact hspace
  · cases hround
    exact ⟨spaces, hspaces, hread⟩

end Stream

namespace Reader

variable {s : Stream}

/-- A round of reading balanced text reads a token, unless the input has ended. -/
theorem opensFirst_balancedRound {depth depth' : Nat} {sofar sofar' : List Token}
    (hdepth : Token.depth sofar.reverse = depth) (hopens : OpensFirst sofar.reverse)
    (h : balancedRound s (depth, sofar) m = (.ok (.inl (depth', sofar')), m')) :
    ∃ t, s m = (.ok (some t), m') ∧ sofar'.reverse = sofar.reverse ++ [t] ∧
      Token.depth sofar'.reverse = depth' ∧ OpensFirst sofar'.reverse := by
  obtain ⟨next, m₁, hnext, h⟩ := Run.exists_of_bind_eq_ok h
  cases next with
  | none => cases h
  | some t =>
    -- the depth afterwards is never negative
    have hnext' {n : Nat} (hn : (depth : Int) + Macro.depthChange t.value = n)
        (h : (.ok (.inl (n, t :: sofar)), m₁) = ((.ok (.inl (depth', sofar')), m') :
          Except Halt ((Nat × List Token) ⊕ (Bool × List Token)) × Machine)) :
        ∃ t, s m = (.ok (some t), m') ∧ sofar'.reverse = sofar.reverse ++ [t] ∧
          Token.depth sofar'.reverse = depth' ∧ OpensFirst sofar'.reverse := by
      cases h
      rw [List.reverse_cons, depth_append, opensFirst_concat, hdepth, depth_cons, depth_nil]
      exact ⟨t, hnext, rfl, by omega, hopens, by omega⟩
    dsimp only at h
    split at h
    · rename_i ho
      exact hnext' (by rw [Macro.depthChange_of_begin ho]; omega) h
    · rename_i ho
      split at h
      · rename_i hc
        cases depth with
        | zero => cases h
        | succ depth => exact hnext' (by rw [Macro.depthChange_of_end hc]; omega) h
      · rename_i hc
        refine hnext' ?_ h
        rw [Macro.depthChange_of_none (Bool.eq_false_iff.2 ho) (Bool.eq_false_iff.2 hc), Int.add_zero]

/-- Balanced text ends before a brace that it has not opened. -/
theorem end_of_balancedRound {depth : Nat} {sofar : List Token}
    (h : balancedRound s (depth, sofar) m = (.ok (.inr (true, ts)), m')) :
    ∃ closer, s m = (.ok (some closer), m') ∧ closer.value.isEndGroup = true ∧ depth = 0 ∧
      ts = sofar.reverse := by
  obtain ⟨next, m₁, hnext, h⟩ := Run.exists_of_bind_eq_ok h
  cases next with
  | none => cases h
  | some t =>
    dsimp only at h
    split at h
    · cases h
    · split at h
      · rename_i hc
        cases depth with
        | zero =>
          cases h
          exact ⟨t, hnext, hc, rfl, rfl⟩
        | succ depth => cases h
      · cases h

/-- What is read up to the closing brace is balanced. -/
theorem supplies_of_finishBalanced {opener : Token} (h : finishBalanced s opener m = (.ok ts, m')) :
    ∃ closer, closer.value.isEndGroup = true ∧ s.Supplies (ts ++ [closer]) m m' ∧ Token.depth ts = 0 ∧
      OpensFirst ts := by
  obtain ⟨⟨complete, ts'⟩, m₁, hbalanced, h⟩ := Run.exists_of_bind_eq_ok h
  cases complete with
  | false => cases h
  | true =>
    cases h
    refine Run.of_loop_eq_ok
      (fun (b : Nat × List Token) m₁ => s.Supplies b.2.reverse m m₁ ∧
        Token.depth b.2.reverse = b.1 ∧ OpensFirst b.2.reverse)
      (fun (r : Bool × List Token) m₁ => r.1 = true → ∃ closer, closer.value.isEndGroup = true ∧
        s.Supplies (r.2 ++ [closer]) m m₁ ∧ Token.depth r.2 = 0 ∧ OpensFirst r.2)
      ?_ (b := (0, [])) ⟨rfl, rfl, opensFirst_nil⟩ hbalanced rfl
    rintro ⟨depth, sofar⟩ r m₁ m₂ ⟨hsupplies, hdepth, hopens⟩ hround
    rcases r with ⟨depth', sofar'⟩ | ⟨complete, ts⟩
    · obtain ⟨t, ht, hsofar, hafter⟩ := opensFirst_balancedRound hdepth hopens hround
      exact ⟨hsofar ▸ hsupplies.concat ht, hafter⟩
    · rintro rfl
      obtain ⟨closer, hcloser, hc, rfl, rfl⟩ := end_of_balancedRound hround
      exact ⟨closer, hc, hsupplies.concat hcloser, hdepth, hopens⟩

end Reader

namespace Macro

/-- Arguments are read from pieces of the input, and an argument is balanced unless its piece closes a
group that it has not opened. -/
def Collects (a : Run (List Token)) : Prop :=
  ∀ {m m' : Machine} {ts : List Token}, a m = (.ok ts, m') → ∃ piece, Stream.raw.Supplies piece m m' ∧
    (Token.depth ts = 0 ∧ OpensFirst ts ↔ OpensFirst piece)

/-- What is a space is no brace. -/
theorem no_brace_of_isSpace (h : t.value.isSpace = true) :
    t.value.isBeginGroup = false ∧ t.value.isEndGroup = false := by
  cases hv : t.value with
  | command ref => exact ⟨rfl, rfl⟩
  | char category c =>
    rw [hv] at h
    cases category with
    | space => exact ⟨rfl, rfl⟩
    | _ => cases h

/-- An argument without delimiter is balanced unless it is a closing brace. -/
theorem collects_undelimitedArgument (number : Nat) : Collects (undelimitedArgument number) := by
  intro m m' ts h
  obtain ⟨t, m₁, ht, h⟩ := Run.exists_of_bind_eq_ok h
  obtain ⟨spaces, hspaces, hsupplies⟩ := Stream.supplies_of_nextNonSpace ht
  have hplain : ∀ u ∈ spaces, u.value.isBeginGroup = false ∧ u.value.isEndGroup = false :=
    fun u hu => no_brace_of_isSpace (hspaces u hu)
  split at h
  · rename_i ho
    obtain ⟨closer, hc, hbody, hdepth, hopens⟩ := Reader.supplies_of_finishBalanced h
    refine ⟨spaces ++ [t] ++ (ts ++ [closer]), Stream.supplies_append.2 ⟨m₁, hsupplies, hbody⟩, ?_⟩
    rw [List.append_assoc, opensFirst_of_no_braces_append hplain]
    exact iff_of_true ⟨hdepth, hopens⟩ (opensFirst_group ho hc (by omega) hopens)
  · rename_i ho
    cases h
    refine ⟨spaces ++ [t], hsupplies, ?_⟩
    rw [opensFirst_of_no_braces_append hplain]
    refine and_iff_right_of_imp fun hopens => ?_
    have hnonneg := hopens [t] (List.prefix_refl _)
    rw [Token.depth_cons, Token.depth_nil, Int.add_zero] at hnonneg ⊢
    by_cases hc : t.value.isEndGroup = true
    · rw [depthChange_of_end hc] at hnonneg
      omega
    · exact depthChange_of_none (Bool.eq_false_iff.2 ho) (Bool.eq_false_iff.2 hc)

/-- An argument with a delimiter is followed by the delimiter, at the depth at which it is looked for. -/
theorem supplies_of_loop_delimited {number : Nat} {vs : List TokenValue} (hne : vs ≠ [])
    (h : Run.loop (delimitedRound number (.ofList vs)) (0, 0, []) m = (.ok ts, m')) :
    ∃ delimiter, Stream.raw.Supplies (ts ++ delimiter) m m' ∧ delimiter.map Token.value = vs ∧
      Token.depth (ts ++ delimiter) = closingDepth vs.toArray := by
  refine Run.of_loop_eq_ok
    (fun (b : Int × Nat × List Token) m₁ => Stream.raw.Supplies b.2.2.reverse m m₁ ∧
      b.1 = Token.depth b.2.2.reverse ∧
      Matcher.Longest vs (b.2.2.reverse.map Token.value) vs.length b.2.1)
    (fun ts m₁ => ∃ delimiter, Stream.raw.Supplies (ts ++ delimiter) m m₁ ∧
      delimiter.map Token.value = vs ∧ Token.depth (ts ++ delimiter) = closingDepth vs.toArray)
    ?_ (b := (0, 0, [])) ⟨rfl, rfl, Matcher.longest_nil hne⟩ h
  rintro ⟨depth, k, sofar⟩ r m₁ m₂ ⟨hsupplies, hdepth, hk⟩ hround
  dsimp only at hsupplies hdepth hk
  subst hdepth
  obtain ⟨t, m₃, ht, -⟩ := Run.exists_of_bind_eq_ok hround
  have hraw := Stream.some_of_nextOr ht
  obtain ⟨k', hk', hstop, hgo⟩ := delimitedRound_eval number hk hraw
  have hread := hsupplies.concat hraw
  rw [List.reverse_reverse] at hstop hgo
  by_cases hstops : Stops vs (sofar.reverse ++ [t])
  · rw [hstop hstops] at hround
    cases hround
    have hsuffix := List.suffix_iff_eq_drop.1 hstops.1
    rw [List.length_map, ← List.map_drop] at hsuffix
    refine ⟨_, ?_, hsuffix.symm, ?_⟩
    · rw [List.take_append_drop]
      exact hread
    · rw [List.take_append_drop]
      exact hstops.2
  · rw [hgo hstops] at hround
    cases hround
    dsimp only [Sum.elim_inl]
    rw [List.reverse_reverse]
    exact ⟨hread, rfl, hk'⟩

/-- An argument with a delimiter is balanced unless it closes a group before it has opened one. -/
theorem collects_delimitedArgument (number : Nat) {vs : List TokenValue}
    (hvs : TokenValue.IsDelimiter vs) (hne : vs ≠ []) :
    Collects (delimitedArgument number (.ofList vs)) := by
  intro m m' ts h
  rw [delimitedArgument_eq] at h
  obtain ⟨argument, m₁, hloop, h⟩ := Run.exists_of_bind_eq_ok h
  cases h
  obtain ⟨delimiter, hsupplies, hvalues, hdepth⟩ := supplies_of_loop_delimited hne hloop
  obtain ⟨hzero, hiff⟩ := opensFirst_append_delimiter hvs hne hvalues hdepth
  exact ⟨argument ++ delimiter, hsupplies, (balanced_withoutBraces_iff hzero).trans hiff.symm⟩

/-! ### Calls -/

theorem collects_readArgument (number : Nat) {p : Parameter} (hp : p.WellDelimited) :
    Collects (readArgument number p) := by
  cases p with
  | undelimited => exact collects_undelimitedArgument number
  | delimited delimiter =>
    obtain ⟨vs, hne, hvs, rfl⟩ := hp
    exact collects_delimitedArgument number hvs hne

/-- The arguments of parameters are read one after another. Each is listed with the piece of the input
that it is read from. -/
inductive ReadsArguments :
    Nat → List Parameter → Machine → List (List Token × List Token) → Machine → Prop where
  | nil (number : Nat) (m : Machine) : ReadsArguments number [] m [] m
  | cons {number : Nat} {p : Parameter} {rest : List Parameter} {m m₁ m' : Machine}
      {piece argument : List Token} {taken : List (List Token × List Token)}
      (hread : readArgument number p m = (.ok argument, m₁))
      (hpiece : Stream.raw.Supplies piece m m₁)
      (hrest : ReadsArguments (number + 1) rest m₁ taken m') :
      ReadsArguments number (p :: rest) m ((piece, argument) :: taken) m'

/-- Each argument is balanced unless its piece closes a group that it has not opened. -/
theorem readsArguments_of_readArguments {number : Nat} {ps : List Parameter}
    {arguments : List (List Token)} (hps : ∀ p ∈ ps, p.WellDelimited)
    (h : readArguments number ps m = (.ok arguments, m')) :
    ∃ taken, taken.map Prod.snd = arguments ∧ ReadsArguments number ps m taken m' ∧
      ∀ piece argument, (piece, argument) ∈ taken →
        (Token.depth argument = 0 ∧ OpensFirst argument ↔ OpensFirst piece) := by
  induction ps generalizing number m arguments with
  | nil =>
    cases h
    exact ⟨[], rfl, .nil number _, fun _ _ h => absurd h List.not_mem_nil⟩
  | cons p ps ih =>
    obtain ⟨hp, hps⟩ := List.forall_mem_cons.1 hps
    rw [readArguments_cons] at h
    obtain ⟨argument, m₁, hread, h⟩ := Run.exists_of_bind_eq_ok h
    obtain ⟨rest, m₂, hrest, h⟩ := Run.exists_of_bind_eq_ok h
    cases h
    obtain ⟨piece, hpiece, hbalanced⟩ := collects_readArgument number hp hread
    obtain ⟨taken, rfl, hreads, htaken⟩ := ih hps hrest
    refine ⟨(piece, argument) :: taken, rfl, .cons hread hpiece hreads, fun piece' argument' hmem => ?_⟩
    rcases List.mem_cons.1 hmem with heq | hmem
    · cases heq
      exact hbalanced
    · exact htaken piece' argument' hmem

/-- The tokens that must follow the name have followed it. -/
theorem supplies_of_matchLead {name : String} {lead : List Token}
    (h : matchLead name lead m = (.ok ⟨⟩, m')) :
    ∃ written, written.map Token.value = lead.map Token.value ∧ Stream.raw.Supplies written m m' := by
  induction lead generalizing m with
  | nil =>
    cases h
    exact ⟨[], rfl, rfl⟩
  | cons want lead ih =>
    obtain ⟨t, m₁, ht, h⟩ := Run.exists_of_bind_eq_ok h
    split at h
    · rename_i hv
      obtain ⟨written, hvalues, hsupplies⟩ := ih h
      refine ⟨t :: written, ?_, m₁, Stream.some_of_nextOr ht, hsupplies⟩
      rw [List.map_cons, List.map_cons, hv, hvalues]
    · cases h

/-- A call that succeeds has read what must follow the name and the arguments, and has put the replacement
text in front of the rest. -/
theorem of_call {mac : Macro} (h : mac.call t m = (.ok ⟨⟩, m')) :
    ∃ arguments m₁ m₂, matchLead t.value.spelling mac.lead m = (.ok ⟨⟩, m₁) ∧
      readArguments 1 mac.parameters m₁ = (.ok arguments, m₂) ∧
      m'.input = m₂.input.pushAll (fill mac.replacement arguments) := by
  obtain ⟨_, m₁, hlead, h⟩ := Run.exists_of_bind_eq_ok h
  obtain ⟨arguments, m₂, harguments, h⟩ := Run.exists_of_bind_eq_ok h
  refine ⟨arguments, m₁, m₂, hlead, harguments, ?_⟩
  have hreplace (h : call.replace mac t.value.spelling arguments m₂ = (.ok ⟨⟩, m')) :
      m'.input = m₂.input.pushAll (fill mac.replacement arguments) := by
    obtain ⟨output, htrace⟩ := traceCall_eval mac t.value.spelling arguments
      (m₂.push (fill mac.replacement arguments))
    have hm' := htrace.symm.trans h
    cases hm'
    rfl
  cases hpar : arguments.flatten.find? (·.value = .par) with
  | none =>
    rw [hpar] at h
    exact hreplace h
  | some par =>
    rw [hpar] at h
    dsimp only at h
    split at h
    · exact hreplace h
    · cases h

end Macro

/-- **The arguments of a call.** Where a macro that is bound on a machine that arises is called, on any
machine, and the call succeeds, it has read the tokens that must follow the name, and then its arguments,
each from a piece of the input of its own. An argument has as many braces that open as braces that close,
and nothing that it starts with closes more than it opens, exactly if the piece that it is read from does
not start with anything that closes more groups than it opens. -/
theorem Macro.arguments_of_call {m : Machine} (hm : m.Arises) {ref : CommandRef} {mac : Macro}
    (hbound : m.lookup ref = .custom mac) {t : Token} {n n' : Machine}
    (h : mac.call t n = (.ok ⟨⟩, n')) :
    ∃ lead taken n₁ n₂,
      lead.map Token.value = mac.lead.map Token.value ∧ Stream.raw.Supplies lead n n₁ ∧
      Macro.ReadsArguments 1 mac.parameters n₁ taken n₂ ∧
      n'.input = n₂.input.pushAll (Macro.fill mac.replacement (taken.map Prod.snd)) ∧
      ∀ piece argument, (piece, argument) ∈ taken →
        (Token.depth argument = 0 ∧ OpensFirst argument ↔ OpensFirst piece) := by
  have hdelimited : mac.WellDelimited := by
    have hcommand : (m.lookup ref).WellDelimited := hm.isSound.lookup ref
    rwa [hbound] at hcommand
  obtain ⟨arguments, n₁, n₂, hlead, harguments, hinput⟩ := of_call h
  obtain ⟨lead, hvalues, hsupplies⟩ := supplies_of_matchLead hlead
  obtain ⟨taken, rfl, hreads, hbalanced⟩ := readsArguments_of_readArguments hdelimited harguments
  exact ⟨lead, taken, n₁, n₂, hvalues, hsupplies, hreads, hinput, hbalanced⟩

namespace Definition

/-- The definition `#1{(#1)}`. -/
def parenthesize : DefinitionText where
  lead := []
  slots := [⟨mark, other '1', []⟩]
  opener := .char .beginGroup '\x7b' none
  body := [.token (other '('), .parameter mark (other '1') 0, .token (other ')')]
  closer := .char .endGroup '\x7d' none

theorem wellFormed_parenthesize : parenthesize.WellFormed where
  lead := fun _ h => absurd h List.not_mem_nil
  slots := ⟨⟨⟨_, rfl⟩, ⟨_, _, rfl, by decide, rfl⟩, fun _ h => absurd h List.not_mem_nil⟩, trivial⟩
  opener := rfl
  body := by
    have htoken (c : Char) : (BodyItem.token (other c)).WellFormed 1 := fun c' h => by cases h
    have hparameter : (BodyItem.parameter mark (other '1') 0).WellFormed 1 :=
      ⟨⟨_, rfl⟩, ⟨_, _, rfl, by decide, rfl⟩, by decide⟩
    simp only [parenthesize, List.forall_mem_cons, List.length_cons, List.length_nil]
    exact ⟨htoken '(', hparameter, htoken ')', fun item h => absurd h List.not_mem_nil⟩
  balanced := Token.balanced_of_no_braces (by decide)
  closer := rfl

end Definition

/-- After `\def\a#1{(#1)}`, the call `\a}` takes the closing brace for its argument, and has read what
closes a group that it has not opened. -/
theorem Macro.arguments_of_call_brace :
    ∃ (m : Machine) (mac : Macro) (n' : Machine) (piece : List Token),
      m.Arises ∧ m.lookup (.controlSequence "a") = .custom mac ∧
      mac.call (.named "a") (Machine.ready.push [.char .endGroup '\x7d' none]) = (.ok ⟨⟩, n') ∧
      (∃ n₂, Macro.ReadsArguments 1 mac.parameters (Machine.ready.push [.char .endGroup '\x7d' none])
        [(piece, [.char .endGroup '\x7d' none])] n₂) ∧
      ¬ OpensFirst piece := by
  let start : Machine := Machine.ready.push (.named "a" :: Definition.parenthesize.tokens)
  have hstart : start.Arises :=
    .act (.act .standard (Run.isExecution_pushTokens [])) (Run.isExecution_pushTokens _)
  -- the definition
  obtain ⟨mac, hmac, -, -, hdefine⟩ := Definition.define_eval (d := Definition.parenthesize)
    Definition.wellFormed_parenthesize rfl ⟨rfl, Machine.accounted_ready _⟩
    (Stream.supplies_push Machine.readable_ready (.named "a" :: Definition.parenthesize.tokens)) false
  have hdefined : (Definition.define false false start).2.Arises :=
    hstart.act (Run.isExecution_define false false)
  have hlookup : (Definition.define false false start).2.lookup (.controlSequence "a") = .custom mac := by
    rw [hdefine, Machine.lookup_change_bound, if_pos rfl]
  -- the call
  have hread : readArgument 1 .undelimited (Machine.ready.push [.char .endGroup '\x7d' none]) =
      (.ok [.char .endGroup '\x7d' none], Machine.ready.push []) :=
    Run.bind_of_ok (Run.nextNonSpace_of_some (Run.raw_push Machine.readable_ready) rfl _)
  have harguments : readArguments 1 mac.parameters (Machine.ready.push [.char .endGroup '\x7d' none]) =
      (.ok [[.char .endGroup '\x7d' none]], Machine.ready.push []) := by
    rw [hmac.parameters]
    exact Run.bind_of_ok hread
  have hmatch : matchLead "\\a" mac.lead (Machine.ready.push [.char .endGroup '\x7d' none]) =
      (.ok ⟨⟩, Machine.ready.push [.char .endGroup '\x7d' none]) := by
    rw [hmac.lead]
    rfl
  obtain ⟨output, hcall⟩ := call_of_readArguments (t := .named "a") hmatch harguments (by decide)
  obtain ⟨lead, taken, n₁, n₂, hlead, hsupplies, hreads, -, hbalanced⟩ :=
    Macro.arguments_of_call hdefined hlookup hcall
  -- what the call has read
  obtain rfl : lead = [] := List.map_eq_nil_iff.1 (by rw [hlead, hmac.lead]; rfl)
  obtain rfl : _ = n₁ := hsupplies
  rw [hmac.parameters] at hreads
  cases hreads with
  | @cons _ _ _ _ _ _ piece argument _ hfirst hpiece hrest =>
    cases hread.symm.trans hfirst
    cases hrest
    refine ⟨_, mac, _, piece, hdefined, hlookup, hcall, ⟨Machine.ready.push [], ?_⟩, fun hopens => ?_⟩
    · rw [hmac.parameters]
      exact .cons hfirst hpiece (.nil _ _)
    have hdepth := ((hbalanced piece _ (List.mem_singleton_self _)).2 hopens).1
    exact absurd hdepth (by decide)

end Gullet
