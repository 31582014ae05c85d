import Gullet.Proofs.Macro.Defining
import Gullet.Proofs.Search.Matching

/-!
# Calling macros

An argument with a delimiter is everything up to the first place outside braces where the delimiter ends.
A call that is written as it should be leaves the replacement text with the arguments in place of the
parameters in front of what follows the call.
-/

namespace Gullet

variable {b : Bindings} {t : Token} {ts : List Token} {m m' m₁ : Machine}

namespace Macro

/-! ### The tokens after the name -/

theorem matchLead_eval {lead written : List Token} (name : String)
    (hwritten : written.map Token.value = lead.map Token.value)
    (h : Stream.raw.Supplies written m m') : matchLead name lead m = (.ok ⟨⟩, m') := by
  induction lead generalizing written m with
  | nil =>
    obtain rfl := List.map_eq_nil_iff.1 hwritten
    obtain rfl : m = m' := h
    rfl
  | cons want lead ih =>
    obtain ⟨t, rest, rfl, hv, hrest⟩ := List.map_eq_cons_iff.1 hwritten
    obtain ⟨m₁, ht, h⟩ := h
    unfold matchLead
    rw [Run.bind_of_ok (Run.nextOr_of_some ht _), if_pos hv]
    exact ih hrest h

/-! ### Arguments in braces -/

theorem undelimitedArgument_eval {opener closer : Token} (number : Nat)
    (ho : opener.value.isBeginGroup = true) (hc : closer.value.isEndGroup = true)
    (hts : Token.Balanced ts) (hm : m.Steady b)
    (h : Stream.raw.Supplies (opener :: (ts ++ [closer])) m m') :
    undelimitedArgument number m = (.ok ts, m') := by
  obtain ⟨m₁, hopener, hrest⟩ := h
  have hspace := (TokenValue.category_of_isBeginGroup ho).2
  unfold undelimitedArgument
  rw [Run.bind_of_ok (Run.nextNonSpace_of_some hopener hspace _), if_pos ho]
  exact Reader.finishBalanced_eval hts hc (hm.raw hopener) hrest

/-! ### Arguments with a delimiter -/

/-- The delimiter ends at the end of the tokens, outside braces. -/
def Stops (delimiter : List TokenValue) (ts : List Token) : Prop :=
  delimiter <:+ ts.map Token.value ∧ Token.depth ts = closingDepth delimiter.toArray

/-- One round of reading an argument with a delimiter. -/
def delimitedRound (number : Nat) (delimiter : Matcher TokenValue) (b : Int × Nat × List Token) :
    Run ((Int × Nat × List Token) ⊕ List Token) := do
  let t ← Stream.raw.nextOr (.delimitedArgument number delimiter.pattern.size)
  let depth := b.1 + depthChange t.value
  let (matched, hit) := delimiter.feed b.2.1 t.value
  if hit && depth = closingDepth delimiter.pattern then
    return .inr ((t :: b.2.2).drop delimiter.pattern.size).reverse
  else return .inl (depth, matched, t :: b.2.2)

theorem delimitedArgument_eq (number : Nat) (delimiter : Matcher TokenValue) :
    delimitedArgument number delimiter = (do
      let ts ← Run.loop (delimitedRound number delimiter) (0, 0, [])
      return withoutBraces ts) := rfl

variable {p : List TokenValue} {read rest : List Token} {k number : Nat}

/-- A round knows whether the argument has ended. -/
theorem delimitedRound_eval (number : Nat) (hk : Matcher.Longest p (read.map Token.value) p.length k)
    (h : Stream.raw m = (.ok (some t), m')) :
    ∃ k', Matcher.Longest p ((read ++ [t]).map Token.value) p.length k' ∧
      (Stops p (read ++ [t]) → delimitedRound number (.ofList p) (Token.depth read, k, read.reverse) m =
        (.ok (.inr ((read ++ [t]).take ((read ++ [t]).length - p.length))), m')) ∧
      (¬ Stops p (read ++ [t]) →
        delimitedRound number (.ofList p) (Token.depth read, k, read.reverse) m =
          (.ok (.inl (Token.depth (read ++ [t]), k', (read ++ [t]).reverse)), m')) := by
  have hmap : (read ++ [t]).map Token.value = read.map Token.value ++ [t.value] := by simp
  have hreverse : (read ++ [t]).reverse = t :: read.reverse := by simp
  have hdepth : Token.depth (read ++ [t]) = Token.depth read + depthChange t.value := by simp
  obtain ⟨hhit, hk'⟩ := Matcher.feed_ofList hk t.value
  -- The round stops exactly where the delimiter ends outside braces.
  have hiff : (((Matcher.ofList p).feed k t.value).2 &&
      decide (Token.depth read + depthChange t.value = closingDepth p.toArray)) = true ↔
        Stops p (read ++ [t]) := by
    rw [Bool.and_eq_true, decide_eq_true_iff, hhit, Stops, hmap, hdepth]
  refine ⟨((Matcher.ofList p).feed k t.value).1, hmap ▸ hk', fun hstops => ?_, fun hstops => ?_⟩
  · unfold delimitedRound
    rw [Run.bind_of_ok (Run.nextOr_of_some h _)]
    dsimp only
    rw [Matcher.pattern_ofList, if_pos (hiff.2 hstops), ← hreverse, List.drop_reverse,
      List.reverse_reverse, List.size_toArray]
    rfl
  · unfold delimitedRound
    rw [Run.bind_of_ok (Run.nextOr_of_some h _)]
    dsimp only
    rw [Matcher.pattern_ofList, if_neg (mt hiff.1 hstops), hdepth, hreverse]
    rfl

/-- An argument is read up to the first place where the delimiter ends outside braces. -/
theorem loop_delimited (hk : Matcher.Longest p (read.map Token.value) p.length k) (hrest : rest ≠ [])
    (hstops : Stops p (read ++ rest))
    (hfirst : ∀ us, us <+: read ++ rest → Stops p us → us = read ++ rest) (hm : m.Steady b)
    (h : Stream.raw.Supplies rest m m') :
    Run.loop (delimitedRound number (.ofList p)) (Token.depth read, k, read.reverse) m =
      (.ok ((read ++ rest).take ((read ++ rest).length - p.length)), m') := by
  induction rest generalizing read k m with
  | nil => exact absurd rfl hrest
  | cons t rest ih =>
    obtain ⟨m₁, ht, h⟩ := h
    obtain ⟨k', hk', hstop, hgo⟩ := delimitedRound_eval number hk ht
    by_cases hlast : rest = []
    · subst hlast
      obtain rfl : m₁ = m' := h
      exact Run.loop_of_answer (hstop hstops)
    · have happend : read ++ t :: rest = (read ++ [t]) ++ rest := by simp
      -- Had the delimiter ended here, nothing would be left to read.
      have hgoes : ¬ Stops p (read ++ [t]) := by
        intro hearly
        have hall := hfirst (read ++ [t]) (happend ▸ List.prefix_append _ _) hearly
        rw [happend] at hall
        exact hlast (List.self_eq_append_right.1 hall)
      rw [Run.loop_of_progress (hgo hgoes) (Run.progress_of_raw ht hm.accounted)]
      rw [happend] at hstops hfirst ⊢
      exact ih hk' hlast hstops hfirst (hm.raw ht) h

theorem delimitedArgument_eval (number : Nat) (hp : p ≠ []) (hstops : Stops p ts)
    (hfirst : ∀ us, us <+: ts → Stops p us → us = ts) (hm : m.Steady b)
    (h : Stream.raw.Supplies ts m m') :
    delimitedArgument number (.ofList p) m =
      (.ok (withoutBraces (ts.take (ts.length - p.length))), m') := by
  have hts : ts ≠ [] := by
    rintro rfl
    exact hp (List.eq_nil_of_suffix_nil hstops.1)
  have hstart : Matcher.Longest p (([] : List Token).map Token.value) p.length 0 :=
    Matcher.longest_nil hp
  have hloop : Run.loop (delimitedRound number (.ofList p)) (0, 0, []) m =
      (.ok (ts.take (ts.length - p.length)), m') := loop_delimited hstart hts hstops hfirst hm h
  rw [delimitedArgument_eq, Run.bind_of_ok hloop]
  rfl

/-! ### All arguments -/

theorem closingDepth_of_ordinary {delimiter : List Token} (hd : ∀ t ∈ delimiter, t.IsOrdinary) :
    closingDepth (delimiter.map Token.value).toArray = 0 := by
  unfold closingDepth
  split
  · rename_i c hlast
    rw [List.back?_toArray] at hlast
    obtain ⟨t, ht, hv⟩ := List.mem_map.1 (List.mem_of_getLast? hlast)
    have hbegin := (hd t ht).noBegin
    rw [hv] at hbegin
    cases hbegin
  · rfl

/-- Reads the argument of a parameter. -/
def readArgument (number : Nat) : Parameter → Run (List Token)
  | .undelimited => undelimitedArgument number
  | .delimited delimiter => delimitedArgument number delimiter

theorem readArguments_cons (number : Nat) (p : Parameter) (rest : List Parameter) :
    readArguments number (p :: rest) = (do
      let ts ← readArgument number p
      return ts :: (← readArguments (number + 1) rest)) := by
  cases p <;> rfl

/-- The delimiter ends where an argument with a delimiter does. -/
theorem stops_written {s : Slot} {argument delimiter : List Token}
    (hs : ∀ t ∈ s.delimiter, t.IsOrdinary) (hbalanced : Token.Balanced argument)
    (hdelimiter : delimiter.map Token.value = s.delimiterValues) :
    Stops s.delimiterValues (argument ++ delimiter) := by
  have hplain : Token.Balanced s.delimiter :=
    Token.balanced_of_no_braces fun t ht => ⟨(hs t ht).noBegin, (hs t ht).noEnd⟩
  have hdepth : Token.depth (argument ++ delimiter) = 0 := by
    rw [Token.depth_append, Token.depth_of_balanced hbalanced, Token.depth_congr hdelimiter,
      Token.depth_of_balanced hplain]
    rfl
  refine ⟨?_, hdepth.trans (closingDepth_of_ordinary hs).symm⟩
  rw [List.map_append, hdelimiter]
  exact List.suffix_append _ _

/-- An argument is read as it is written. -/
theorem readArgument_eval {s : Slot} {argument written : List Token}
    (hwritten : s.Written argument written) (hs : ∀ t ∈ s.delimiter, t.IsOrdinary) (hm : m.Steady b)
    (h : Stream.raw.Supplies written m m') :
    readArgument number s.parameter m = (.ok argument, m') := by
  cases hwritten with
  | group hnil ho hc hbalanced =>
    rw [Slot.parameter_of_nil hnil]
    exact undelimitedArgument_eval number ho hc hbalanced hm h
  | @delimited argument delimiter hne hdelimiter hbalanced hgroup hfirst =>
    have hlength : (argument ++ delimiter).length - s.delimiterValues.length = argument.length := by
      rw [← hdelimiter, List.length_map, List.length_append, Nat.add_sub_cancel]
    have hread := delimitedArgument_eval number (Slot.delimiterValues_ne_nil hne)
      (stops_written hs hbalanced hdelimiter)
      (fun us hprefix hus => hfirst us hprefix hus.1 (hus.2.trans (closingDepth_of_ordinary hs))) hm h
    rw [hlength, List.take_left, withoutBraces_of_balanced hbalanced hgroup] at hread
    rw [Slot.parameter_of_ne_nil hne]
    exact hread

/-- The arguments are read as they are written. -/
theorem readArguments_eval (number : Nat) {slots : List Slot} {arguments : List (List Token)}
    {written : List Token} (hwritten : Slot.AllWritten slots arguments written)
    (hslots : ∀ s ∈ slots, ∀ t ∈ s.delimiter, t.IsOrdinary) (hm : m.Steady b)
    (h : Stream.raw.Supplies written m m') :
    readArguments number (slots.map Slot.parameter) m = (.ok arguments, m') := by
  induction hwritten generalizing number m with
  | nil =>
    obtain rfl : m = m' := h
    rfl
  | @cons s slots argument tokens rest arguments hs _ ih =>
    obtain ⟨hordinary, hslots⟩ := List.forall_mem_cons.1 hslots
    obtain ⟨m₁, hfirst, hrest⟩ := Stream.supplies_append.1 h
    rw [List.map_cons, readArguments_cons, Run.bind_of_ok (readArgument_eval hs hordinary hm hfirst),
      Run.bind_of_ok (ih (number + 1) hslots (hm.supplies hfirst) hrest)]
    rfl

/-! ### Calls -/

/-- To write about a call changes only what is written. -/
theorem traceCall_eval (mac : Macro) (name : String) (arguments : List (List Token)) (m : Machine) :
    ∃ output, mac.traceCall name arguments m = (.ok ⟨⟩, { m with output }) := by
  unfold traceCall
  rw [Run.get_bind_eval]
  by_cases hlog : 0 < m.scopes.store.int .tracingMacros
  · rw [if_pos hlog]
    by_cases hterminal : 1 < m.scopes.store.int .tracingMacros
    · rw [if_pos hterminal]
      exact ⟨_, rfl⟩
    · rw [if_neg hterminal]
      exact ⟨_, rfl⟩
  · rw [if_neg hlog]
    exact ⟨m.output, rfl⟩

/-- The replacement text comes next, and only what is written about the call is added to the output. -/
theorem replace_eval (mac : Macro) (name : String) (arguments : List (List Token)) (m : Machine) :
    ∃ output, call.replace mac name arguments m =
      (.ok ⟨⟩, ({ m with output } : Machine).push (fill mac.replacement arguments)) := by
  obtain ⟨output, htrace⟩ := traceCall_eval mac name arguments (m.push (fill mac.replacement arguments))
  exact ⟨output, htrace⟩

/-- A call that has read its arguments, without a paragraph break, leaves the replacement text in front of
the rest. -/
theorem call_of_readArguments {mac : Macro} {arguments : List (List Token)}
    (hlead : matchLead t.value.spelling mac.lead m = (.ok ⟨⟩, m₁))
    (hread : readArguments 1 mac.parameters m₁ = (.ok arguments, m'))
    (hpar : ∀ argument ∈ arguments, ∀ t ∈ argument, t.value ≠ .par) :
    ∃ output, mac.call t m =
      (.ok ⟨⟩, ({ m' with output } : Machine).push (fill mac.replacement arguments)) := by
  have hnone : arguments.flatten.find? (·.value = .par) = none := by
    refine List.find?_eq_none.2 fun t ht => ?_
    obtain ⟨argument, hargument, ht⟩ := List.mem_flatten.1 ht
    simpa using hpar argument hargument t ht
  obtain ⟨output, hreplace⟩ := replace_eval mac t.value.spelling arguments m'
  refine ⟨output, ?_⟩
  unfold call
  rw [Run.bind_of_ok hlead, Run.bind_of_ok hread, hnone]
  exact hreplace

/-- The arguments of a long macro may have paragraph breaks. -/
theorem call_of_long {mac : Macro} {arguments : List (List Token)} (hlong : mac.long = true)
    (hlead : matchLead t.value.spelling mac.lead m = (.ok ⟨⟩, m₁))
    (hread : readArguments 1 mac.parameters m₁ = (.ok arguments, m')) :
    ∃ output, mac.call t m =
      (.ok ⟨⟩, ({ m' with output } : Machine).push (fill mac.replacement arguments)) := by
  obtain ⟨output, hreplace⟩ := replace_eval mac t.value.spelling arguments m'
  refine ⟨output, ?_⟩
  unfold call
  rw [Run.bind_of_ok hlead, Run.bind_of_ok hread]
  cases arguments.flatten.find? (·.value = .par) with
  | none => exact hreplace
  | some par =>
    dsimp only
    rw [if_pos hlong]
    exact hreplace

/-- A call that is written as it should be leaves the replacement text with the arguments in place of the
parameters in front of what follows. -/
theorem call_eval {mac : Macro} {slots : List Slot}
    (hparameters : mac.parameters = slots.map Slot.parameter)
    (hslots : ∀ s ∈ slots, ∀ t ∈ s.delimiter, t.IsOrdinary) {lead written : List Token}
    {arguments : List (List Token)} (hlead : lead.map Token.value = mac.lead.map Token.value)
    (hwritten : Slot.AllWritten slots arguments written)
    (hpar : ∀ argument ∈ arguments, ∀ t ∈ argument, t.value ≠ .par) (t : Token) (hm : m.Steady b)
    (h : Stream.raw.Supplies (lead ++ written) m m') :
    ∃ output, mac.call t m =
      (.ok ⟨⟩, ({ m' with output } : Machine).push (fill mac.replacement arguments)) := by
  obtain ⟨m₁, hlead', hwritten'⟩ := Stream.supplies_append.1 h
  have hread := readArguments_eval 1 hwritten hslots (hm.supplies hlead') hwritten'
  rw [← hparameters] at hread
  exact call_of_readArguments (matchLead_eval _ hlead hlead') hread hpar

end Macro

/-! ### Definitions and calls together -/

namespace Run

/-- What has supplied tokens can go on. -/
theorem readable_of_supplies (hm : m.Readable) (h : Stream.raw.Supplies ts m m') : m'.Readable := by
  induction ts generalizing m with
  | nil =>
    obtain rfl : m = m' := h
    exact hm
  | cons t ts ih =>
    obtain ⟨m₁, ht, hrest⟩ := h
    exact ih (readable_of_raw ht) hrest

end Run

namespace Definition

/-- **Macros substitute their arguments.** A definition that is written as it should be binds its name to
a macro. Where a call of this macro is written as it should be, with arguments that have no paragraph
break, it leaves the replacement text in front of the input, with the arguments in place of the parameters
and one parameter token in place of two, and then comes what followed the call. Only what is written about
the call may have been added to the output. -/
theorem call_of_define {d : DefinitionText} (hd : d.WellFormed) {name : Token} {ref : CommandRef}
    (hv : name.value = .command ref) {m m' : Machine} (hm : Input.Accounted m.input.sources)
    (h : Stream.raw.Supplies (name :: d.tokens) m m') (everywhere : Bool) :
    ∃ mac m₁, define everywhere false m = (.ok ⟨⟩, m₁) ∧ m₁.lookup ref = .custom mac ∧
      m₁.input = m'.input ∧
      ∀ (t : Token) {n n' : Machine} {lead written : List Token} {arguments : List (List Token)},
        lead.map Token.value = d.lead.map Token.value → Slot.AllWritten d.slots arguments written →
        (∀ argument ∈ arguments, ∀ t ∈ argument, t.value ≠ .par) →
        Input.Accounted n.input.sources → n.Readable →
        Stream.raw.Supplies (lead ++ written) n n' →
        ∃ output, mac.call t n =
            (.ok ⟨⟩, ({ n' with output } : Machine).push (d.filled arguments)) ∧
          Stream.raw.Supplies (d.filled arguments)
            (({ n' with output } : Machine).push (d.filled arguments)) { n' with output } := by
  obtain ⟨mac, hmac, -, -, hdefine⟩ := define_eval hd hv ⟨rfl, hm⟩ h everywhere
  refine ⟨mac, _, hdefine, ?_, rfl, ?_⟩
  · rw [Machine.lookup_change_bound, if_pos rfl]
  · intro t n n' lead written arguments hlead hwritten hpar hn hgoing hcall
    rw [← hmac.lead] at hlead
    obtain ⟨output, houtput⟩ := Macro.call_eval hmac.parameters (Slot.ordinary_of_numbered hd.slots)
      hlead hwritten hpar t ⟨rfl, hn⟩ hcall
    rw [hmac.fill] at houtput
    have hafter := Run.readable_of_supplies hgoing hcall
    exact ⟨output, houtput, Stream.supplies_push (m := { n' with output })
      ⟨hafter.going, hafter.sources⟩ _⟩

/-- A letter that belongs to no source. -/
def letter (c : Char) : Token := .char .letter c none

/-- A character of another category that belongs to no source. -/
def other (c : Char) : Token := .char .other c none

/-- Tokens in braces that belong to no source. -/
def inBraces (ts : List Token) : List Token :=
  .char .beginGroup '\x7b' none :: (ts ++ [.char .endGroup '\x7d' none])

/-- A parameter token that belongs to no source. -/
def mark : Token := .char .parameter '#' none

/-- The definition `x#1y#2{(#2,#1)##}`. -/
def swap : DefinitionText where
  lead := [letter 'x']
  slots := [⟨mark, other '1', [letter 'y']⟩, ⟨mark, other '2', []⟩]
  opener := .char .beginGroup '\x7b' none
  body := [.token (other '('), .parameter mark (other '2') 1, .token (other ','),
    .parameter mark (other '1') 0, .token (other ')'), .doubled mark mark]
  closer := .char .endGroup '\x7d' none

theorem isOrdinary_letter (c : Char) : (letter c).IsOrdinary :=
  ⟨rfl, rfl, fun c' h => by cases h⟩

theorem wellFormed_swap : swap.WellFormed where
  lead := by
    intro t ht
    rw [List.mem_singleton.1 ht]
    exact isOrdinary_letter 'x'
  slots := by
    refine ⟨⟨⟨_, rfl⟩, ⟨_, _, rfl, by decide, rfl⟩, ?_⟩, ⟨⟨_, rfl⟩, ⟨_, _, rfl, by decide, rfl⟩, ?_⟩,
      trivial⟩
    · intro t ht
      rw [List.mem_singleton.1 ht]
      exact isOrdinary_letter 'y'
    · exact fun t ht => absurd ht List.not_mem_nil
  opener := rfl
  body := by
    have htoken (c : Char) : (BodyItem.token (other c)).WellFormed 2 := fun c' h => by cases h
    have hmark : ∃ c, mark.value = .char .parameter c := ⟨_, rfl⟩
    have hparameter (c : Char) {index : Nat} (hc : parameterIndex? c = some index) (hi : index < 2) :
        (BodyItem.parameter mark (other c) index).WellFormed 2 :=
      ⟨hmark, ⟨_, _, rfl, by decide, hc⟩, hi⟩
    simp only [swap, List.forall_mem_cons, List.length_cons, List.length_nil]
    exact ⟨htoken '(', hparameter '2' rfl (by decide), htoken ',', hparameter '1' rfl (by decide),
      htoken ')', ⟨hmark, hmark⟩, fun item h => absurd h List.not_mem_nil⟩
  balanced := Token.balanced_of_no_braces (by decide)
  closer := rfl

/-- After `\def\a x#1y#2{(#2,#1)##}`, the call `\a x{b}cy{d}` leaves `(d,{b}c)#`. -/
theorem call_swap :
    ∃ mac m₁, define false false (Machine.ready.push (.named "a" :: swap.tokens)) = (.ok ⟨⟩, m₁) ∧
      m₁.lookup (.controlSequence "a") = .custom mac ∧
      ∃ output, mac.call (.named "a") (Machine.ready.push
          (letter 'x' :: (inBraces [letter 'b'] ++ [letter 'c', letter 'y'] ++ inBraces [letter 'd']))) =
        (.ok ⟨⟩, ({ Machine.ready with output } : Machine).push
          ([other '(', letter 'd', other ','] ++ (inBraces [letter 'b'] ++ [letter 'c']) ++
            [other ')', mark])) := by
  obtain ⟨mac, m₁, hdefine, hlookup, -, hcall⟩ := call_of_define (d := swap) wellFormed_swap rfl
    (Machine.accounted_ready _) (Stream.supplies_push Machine.readable_ready (.named "a" :: swap.tokens))
    false
  have hletter (c : Char) : Token.Balanced [letter c] := .token rfl rfl .nil
  have hargument : Token.Balanced (.char .beginGroup '\x7b' none ::
      ([letter 'b'] ++ .char .endGroup '\x7d' none :: [letter 'c'])) :=
    .group rfl rfl (hletter 'b') (hletter 'c')
  let written : List Token := inBraces [letter 'b'] ++ [letter 'c', letter 'y']
  have hfirst : ∀ n < 6, [(letter 'y').value] <:+ (written.take n).map Token.value →
      Token.depth (written.take n) = 0 → n = 5 := by
    decide
  have hdelimited : Slot.Written ⟨mark, other '1', [letter 'y']⟩ (inBraces [letter 'b'] ++ [letter 'c'])
      (inBraces [letter 'b'] ++ [letter 'c'] ++ [letter 'y']) := by
    refine .delimited (List.cons_ne_nil _ _) rfl hargument ?_ ?_
    · rintro ⟨opener, body, closer, h, -, hc, -⟩
      have hlast : (inBraces [letter 'b'] ++ [letter 'c']).getLast? = some closer := by
        rw [h, ← List.cons_append, List.getLast?_concat]
      cases hlast
      cases hc
    · intro us hprefix hsuffix hdepth
      rw [List.prefix_iff_eq_take.1 hprefix] at hsuffix hdepth
      exact hprefix.eq_of_length
        (hfirst us.length (Nat.lt_succ_of_le hprefix.length_le) hsuffix hdepth)
  have hundelimited : Slot.Written ⟨mark, other '2', []⟩ [letter 'd'] (inBraces [letter 'd']) :=
    .group rfl rfl rfl (hletter 'd')
  have hlead : [letter 'x'].map Token.value = swap.lead.map Token.value := rfl
  obtain ⟨output, houtput, -⟩ := hcall (.named "a") hlead
    (.cons hdelimited (.cons hundelimited .nil)) (by decide) (Machine.accounted_ready _)
    ⟨rfl, List.cons_ne_nil _ _⟩ (Stream.supplies_push Machine.readable_ready _)
  exact ⟨mac, m₁, hdefine, hlookup, output, houtput⟩

end Definition

end Gullet
