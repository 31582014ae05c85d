import Gullet.Expansion
import Gullet.Proofs.Evolution.Acts
import Gullet.Proofs.Taking.Arguments

/-!
# How expansion goes on

Every expansion counts itself first. So nothing needs to be known of what an expansion primitive does
with the input; but its loops must make progress, and the expansions inside it must find enough levels.
-/

namespace Gullet.Run

variable {levels : Nat} {x : Expander}

/-! ### Acts that put something in front of the input -/

theorem finishes_pushTokens (ts : List Token) : (pushTokens ts).Finishes levels :=
  finishes_modify fun m => .push m ts

theorem finishes_pushBack (t : Token) : (pushBack t).Finishes levels := by
  refine finishes_modify fun m => ?_
  rw [Input.push_eq_pushAll]
  exact .push m [t]

theorem finishes_option_pushBack (t? : Option Token) : (t?.forM pushBack).Finishes levels := by
  cases t? with
  | none => exact (spends_pure _).finishes
  | some t => exact finishes_pushBack t

theorem finishes_pushText (t : Token) (s : String) : (Conversion.pushText t s).Finishes levels :=
  finishes_pushTokens _

/-! ### Macros -/

theorem spends_matchLead (name : String) (lead : List Token) :
    (Macro.matchLead name lead).Spends levels := by
  induction lead with
  | nil => exact spends_pure _
  | cons want rest ih =>
    refine (spends_nextOr takes_raw _).bind fun t => ?_
    split
    · exact ih
    · exact spends_fail _

theorem spends_undelimitedArgument (number : Nat) :
    (Macro.undelimitedArgument number).Spends levels := by
  refine (spends_nextNonSpace takes_raw _).bind fun t => ?_
  split
  · exact spends_finishBalanced takes_raw t
  · exact spends_pure _

theorem spends_delimitedArgument (number : Nat) (delimiter : Matcher TokenValue) :
    (Macro.delimitedArgument number delimiter).Spends levels := by
  refine Spends.bind (.loop_of_bind (consumes_nextOr_ne_nil takes_raw _) (fun b t => ?_) _)
    fun _ => spends_pure _
  dsimp only
  split
  · exact spends_pure _
  · exact spends_pure _

theorem spends_readArguments (number : Nat) (parameters : List Parameter) :
    (Macro.readArguments number parameters).Spends levels := by
  induction parameters generalizing number with
  | nil => exact spends_pure _
  | cons p rest ih =>
    have hrest (ts : List Token) : (do
        return ts :: (← Macro.readArguments (number + 1) rest) :
          Run (List (List Token))).Spends levels :=
      (ih (number + 1)).bind fun _ => spends_pure _
    cases p with
    | undelimited => exact (spends_undelimitedArgument number).bind hrest
    | delimited d => exact (spends_delimitedArgument number d).bind hrest

theorem stays_traceCall (mac : Macro) (name : String) (arguments : List (List Token)) :
    (mac.traceCall name arguments).Stays := by
  refine .get_bind fun m => ?_
  dsimp only
  split
  · refine (stays_writeLog _).bind fun _ => ?_
    split
    · exact stays_writeTerminal _
    · exact stays_pure _
  · exact stays_pure _

theorem finishes_replace (mac : Macro) (name : String) (arguments : List (List Token)) :
    (Macro.call.replace mac name arguments).Finishes levels :=
  (finishes_pushTokens _).bind fun _ => (stays_traceCall mac name arguments).spends.finishes

theorem finishes_call (mac : Macro) (t : Token) : (mac.call t).Finishes levels := by
  refine (spends_matchLead _ _).finishes.bind fun _ =>
    (spends_readArguments _ _).finishes.bind fun arguments => ?_
  split
  · split
    · exact finishes_replace mac _ arguments
    · exact (spends_fail _).finishes
  · exact finishes_replace mac _ arguments

/-! ### Conditionals -/

theorem consumes_nextTag :
    Conditional.nextTag.Consumes levels fun r ts => r.isSome = true → ts ≠ [] := by
  refine (consumes_stream takes_raw).bind ?_
  rintro r _ rfl
  cases r with
  | none => exact consumes_pure fun h => nomatch h
  | some t => exact .get_bind fun _ => consumes_pure fun _ => List.cons_ne_nil t []

/-- What is skipped is not empty, as it contains the divider. -/
theorem consumes_skip (t : Token) (atElse atCase : Bool) (part : SkippedPart) :
    (Conditional.skip t atElse atCase part).Consumes levels fun _ ts => ts ≠ [] := by
  refine Consumes.loop (I := fun _ _ => True) (fun depth us _ => ?_) trivial
  refine Consumes.mono (A := fun _ vs => vs ≠ []) (consumes_nextTag.bind fun r ts hts => ?_) ?_
  · cases r with
    | none => exact consumes_fail _
    | some tag? =>
      have hts : ts ++ [] ≠ [] := by simpa using hts rfl
      split
      · exact consumes_fail _
      · exact consumes_pure hts
      · split
        · exact consumes_pure hts
        · exact consumes_pure hts
        · split
          · exact consumes_pure hts
          · exact consumes_pure hts
        · exact consumes_pure hts
  · rintro (d | d) vs hvs
    · exact ⟨hvs, trivial⟩
    · exact List.append_ne_nil_of_right_ne_nil us hvs

theorem spends_skip (t : Token) (atElse atCase : Bool) (part : SkippedPart) :
    (Conditional.skip t atElse atCase part).Spends levels := (consumes_skip t atElse atCase part).spends

theorem stays_openBranch (b : Branch) : (Conditional.openBranch b).Stays :=
  stays_modify fun _ => ⟨rfl, rfl, rfl, rfl, rfl⟩

theorem stays_closeBranch : Conditional.closeBranch.Stays :=
  stays_modify fun _ => ⟨rfl, rfl, rfl, rfl, rfl⟩

theorem spends_choose (t : Token) (condition : Bool) :
    (Conditional.choose t condition).Spends levels := by
  cases condition with
  | true => exact (stays_openBranch _).spends
  | false =>
    refine (spends_skip _ _ _ _).bind fun d => ?_
    cases d with
    | elseBranch => exact (stays_openBranch _).spends
    | _ => exact spends_pure _

theorem spends_chooseCase (t : Token) (n : Int) : (Conditional.chooseCase t n).Spends levels := by
  refine .loop (fun n => ?_) n
  split
  · exact (stays_openBranch _).consumes_bind fun _ => consumes_pure fun h => nomatch h
  · refine (consumes_skip _ _ _ _).bind fun d ts hts => ?_
    cases d with
    | nextCase => exact consumes_pure fun _ => by simpa using hts
    | elseBranch =>
      exact (stays_openBranch _).consumes_bind fun _ => consumes_pure fun h => nomatch h
    | endIf => exact consumes_pure fun h => nomatch h

theorem spends_numbersCompare (hx : x.Counts levels) :
    (Conditional.numbersCompare x).Spends levels :=
  (spends_number hx).bind fun _ => (spends_relation (takes_expanded hx)).bind fun _ =>
    (spends_number hx).bind fun _ => spends_pure _

theorem spends_meaningsAgree : Conditional.meaningsAgree.Spends levels :=
  (spends_nextOr takes_raw _).bind fun _ => (spends_nextOr takes_raw _).bind fun _ =>
    .get_bind fun _ => spends_pure _

theorem spends_nextIsDefined : Conditional.nextIsDefined.Spends levels :=
  (spends_nextOr takes_raw _).bind fun _ => .get_bind fun _ => spends_pure _

theorem spends_endCase (t : Token) : (Conditional.endCase t).Spends levels := by
  refine .get_bind fun m => ?_
  split
  · exact stays_closeBranch.consumes_bind fun _ => (spends_skip _ _ _ _).bind fun _ => spends_pure _
  · exact spends_fail _

theorem spends_endHolding (t : Token) : (Conditional.endHolding t).Spends levels := by
  have hskip (opener : Token) : (do
      Conditional.closeBranch
      _ ← Conditional.skip opener false false .falseBranch : Run Unit).Spends levels :=
    stays_closeBranch.consumes_bind fun _ => (spends_skip _ _ _ _).bind fun _ => spends_pure _
  refine .get_bind fun m => ?_
  split
  · exact hskip _
  · exact hskip _
  · exact spends_fail _

theorem spends_endConditional (t : Token) : (Conditional.endConditional t).Spends levels := by
  refine .get_bind fun m => ?_
  split
  · exact stays_closeBranch.spends
  · exact spends_fail _

/-! ### Conversions and files -/

theorem spends_dimenText (d : Dimen) : (Conversion.dimenText d).Spends levels := by
  unfold Conversion.dimenText
  split
  · exact spends_throw fun h => nomatch h
  · exact spends_pure _

theorem finishes_value (hx : x.Counts levels) (t : Token) : (Conversion.value x t).Finishes levels := by
  refine (spends_nextOr (takes_expanded hx) _).finishes.bind fun target => ?_
  split
  · exact (spends_fail _).finishes
  · refine (stays_lookup _).spends.finishes.bind fun command => ?_
    split
    · refine (spends_variableOf hx target _).finishes.bind fun v => ?_
      refine Finishes.get_bind fun m => ?_
      cases v with
      | dimen index => exact (spends_dimenText _).finishes.bind fun _ => finishes_pushText t _
      | tokenList index => exact finishes_pushTokens _
      | _ => exact finishes_pushText t _
    · exact (spends_fail _).finishes

theorem finishes_decimal (hx : x.Counts levels) (t : Token) :
    (Conversion.decimal x t).Finishes levels :=
  (spends_number hx).finishes.bind fun _ => finishes_pushText t _

theorem finishes_roman (hx : x.Counts levels) (t : Token) : (Conversion.roman x t).Finishes levels :=
  (spends_number hx).finishes.bind fun _ => finishes_pushText t _

theorem finishes_spelling (t : Token) : (Conversion.spelling t).Finishes levels :=
  (spends_nextOr takes_raw _).finishes.bind fun _ => finishes_pushText t _

theorem finishes_written (t : Token) : (Conversion.written t).Finishes levels :=
  spends_argument.finishes.bind fun _ => finishes_pushText t _

theorem finishes_meaning (t : Token) : (Conversion.meaning t).Finishes levels :=
  (spends_nextOr takes_raw _).finishes.bind fun _ => .get_bind fun _ => finishes_pushText t _

theorem finishes_name (hx : x.Counts levels) (t : Token) : (Conversion.name x t).Finishes levels := by
  refine Finishes.bind (Spends.loop_of_bind (consumes_nextOr_ne_nil (takes_expanded hx) .csname)
    (fun sofar next => ?_) []).finishes fun chars => ?_
  · split
    · exact spends_pure _
    · refine (stays_lookup _).consumes_bind fun command => ?_
      split
      · exact spends_pure _
      · exact spends_fail _
  refine (stays_lookup _).spends.finishes.bind fun command => ?_
  dsimp only
  split
  · exact finishes_pushTokens _
  · exact (stays_bindRef _ _ _).spends.finishes.bind fun _ => finishes_pushTokens _

theorem finishes_input (hx : x.Counts levels) (t : Token) : (Inclusion.input x t).Finishes levels := by
  refine (spends_fileName hx).finishes.bind fun name => ?_
  split
  · exact (spends_fail _).finishes
  · refine .get_bind fun m => ?_
    dsimp only
    split
    · exact (spends_fail _).finishes
    · refine (stays_emit _).spends.finishes.bind fun _ => ?_
      split
      · exact (spends_fail _).finishes
      · exact finishes_modify fun m => .openSource m _ _

theorem finishes_endInput : Inclusion.endInput.Finishes levels := finishes_modify fun m => .endInput m

/-! ### Expansion -/

theorem finishes_afterNext (hx : x.Counts levels) (t : Token) :
    (Expansion.afterNext x t).Finishes levels := by
  refine (spends_stream takes_raw).finishes.bind fun first? => ?_
  cases first? with
  | none => exact (spends_fail _).finishes
  | some first =>
    refine (spends_stream takes_raw).finishes.bind fun second? => ?_
    cases second? with
    | none => exact (spends_fail _).finishes
    | some second =>
      obtain ⟨value, key⟩ := second
      refine .get_bind fun m => ?_
      dsimp only
      split
      case isTrue hcan =>
        cases value with
        | char category c =>
          rw [Bool.and_eq_true] at hcan
          exact absurd hcan.2 (by simp [Bindings.canExpand])
        | command ref =>
          refine Finishes.bind (fun m hready => ?_) fun t? =>
            (finishes_option_pushBack t?).bind fun _ => finishes_pushBack first
          exact (hx m hready ref key).mono fun _ _ h => h.1
      case isFalse => exact (finishes_pushBack _).bind fun _ => finishes_pushBack first

theorem spends_held (t : Token) : (Expansion.held t).Spends levels := by
  refine .get_bind fun m => ?_
  split
  · refine (spends_stream takes_raw).bind fun next? => ?_
    cases next? with
    | none => exact spends_fail _
    | some next => exact spends_pure _
  · exact spends_fail _

theorem finishes_supplyDefault (t : Token) : (Expansion.supplyDefault t).Finishes levels := by
  refine spends_argument.finishes.bind fun target => spends_argument.finishes.bind fun default => ?_
  refine (spends_skipSpaces takes_raw).finishes.bind fun _ =>
    (consumes_peek takes_raw).finishes.bind fun next => ?_
  split
  · exact finishes_pushTokens _
  · exact finishes_pushTokens _

/-- Every expansion primitive goes on, if the expander counts the expansions inside it. -/
theorem finishes_expansionPrimitive (hx : x.Counts levels) (t : Token) (p : ExpansionPrimitive) :
    (Expansion.primitive x t p).Finishes levels := by
  have hquiet {action : Run Unit} (h : action.Finishes levels) :
      (Expansion.primitive.quiet action).Finishes levels :=
    h.bind fun _ => (spends_pure _).finishes
  cases p with
  | noExpand => exact (spends_held t).finishes
  | supplyDefault => exact hquiet (finishes_supplyDefault t)
  | csname => exact hquiet (finishes_name hx t)
  | detokenize => exact hquiet (finishes_written t)
  | elseBranch => exact hquiet (spends_endHolding t).finishes
  | endInput => exact hquiet finishes_endInput
  | expandAfter => exact hquiet (finishes_afterNext hx t)
  | endIf => exact hquiet (spends_endConditional t).finishes
  | ifCase => exact hquiet ((spends_number hx).bind fun n => spends_chooseCase t n).finishes
  | ifDefined => exact hquiet (spends_nextIsDefined.bind fun b => spends_choose t b).finishes
  | ifFalse => exact hquiet (spends_choose t false).finishes
  | ifNum => exact hquiet ((spends_numbersCompare hx).bind fun b => spends_choose t b).finishes
  | ifOdd => exact hquiet ((spends_number hx).bind fun n => spends_choose t _).finishes
  | ifTrue => exact hquiet (spends_choose t true).finishes
  | ifSame => exact hquiet (spends_meaningsAgree.bind fun b => spends_choose t b).finishes
  | input => exact hquiet (finishes_input hx t)
  | meaning => exact hquiet (finishes_meaning t)
  | number => exact hquiet (finishes_decimal hx t)
  | nextCase => exact hquiet (spends_endCase t).finishes
  | romanNumeral => exact hquiet (finishes_roman hx t)
  | string => exact hquiet (finishes_spelling t)
  | the => exact hquiet (finishes_value hx t)

/-- A count that does not exceed the limit uses up one of the expansions that are left. -/
theorem ensures_count (t : Token) (m : Machine) :
    (Expansion.count t).Ensures m fun _ m' =>
      m.Continues m' ∧ m'.expansionsLeft < m.expansionsLeft := by
  have hcount : m.Continues { m with expansions := m.expansions + 1 } :=
    (Machine.Evolves.count m).continues
  refine Ensures.bind (A := fun _ m' => m' = { m with expansions := m.expansions + 1 })
    (ensures_modify rfl) ?_
  rintro _ _ rfl
  refine Ensures.get_bind ?_
  split
  case isTrue => exact ensures_fail _
  case isFalse hle =>
    refine ensures_pure ⟨hcount, ?_⟩
    dsimp only at hle
    unfold Machine.expansionsLeft
    dsimp only
    omega

/-- **An expander with enough levels counts an expansion whenever it is given a command.** -/
theorem counts_expandWithin (levels : Nat) : (Expansion.expandWithin levels).Counts levels := by
  induction levels with
  | zero =>
    -- the depth is always below the limit by fewer than no levels
    intro m hready
    have hwithin := hready.within
    have henough := hready.enough
    omega
  | succ levels ih =>
    intro m hready ref key
    let t : Token := ⟨.command ref, key⟩
    -- the count is gone up at first, so that whatever is done afterwards, fewer expansions are left
    refine (ensures_count t m).bind fun _ m' hcount => ?_
    obtain ⟨hc, hlt⟩ := hcount
    refine Ensures.mono (Finishes.bind (stays_lookup ref).spends.finishes
      (fun command => ?_) m' (hready.of_continues hc)) fun _ m'' hc' => ⟨hc.trans hc', ?_⟩
    · cases command with
      | expansion p => exact .deeper t ((finishes_expansionPrimitive ih t p).during .expansion t)
      | custom mac =>
        exact ((finishes_call mac t).during .expansion t).bind fun _ => (spends_pure _).finishes
      | _ => exact (spends_pure _).finishes
    · exact Nat.lt_of_le_of_lt hc'.expansionsLeft_le hlt

/-- The expander of the interpreter always has enough levels. -/
theorem counts_expand : expand.Counts levels := by
  intro m hready ref key
  refine Ensures.get_bind (counts_expandWithin _ m ⟨hready.accounted, hready.within, ?_⟩ ref key)
  omega

/-- **The main stream takes the token that it gives.** -/
theorem takes_main : Stream.main.Takes levels := takes_expanded counts_expand

/-- A character vanishes when it is expanded, without being counted. -/
theorem finishes_expand (t : Token) : (expand t).Finishes levels := by
  obtain ⟨value, key⟩ := t
  cases value with
  | char category c => exact .get_bind fun m => (spends_pure _).finishes
  | command ref => exact fun m hready => (counts_expand m hready ref key).mono fun _ _ h => h.1

theorem finishes_expandNext : Stream.expandNext.Finishes levels := by
  refine (spends_stream takes_raw).finishes.bind fun r => ?_
  cases r with
  | none => exact (spends_pure _).finishes
  | some t =>
    refine .get_bind fun m => ?_
    split
    · refine (finishes_expand t).bind fun held => ?_
      exact (finishes_option_pushBack held).bind fun _ => (spends_pure _).finishes
    · exact (finishes_pushBack t).bind fun _ => (spends_pure _).finishes

end Gullet.Run
