import Gullet.Expansion
import Gullet.Proofs.Unfolding.Readers

/-!
# What expansion respects

Every expansion primitive respects the relations that the acts of expansion respect, if the expander does
that it calls. By induction on the levels of nesting, so does expansion itself.
-/

namespace Gullet.Run

section

variable {P : Relation} [Compositional P] {x x' : Expander}

/-! ### Conditionals -/

@[grind .] theorem respects_nextTag : Conditional.nextTag.Respects P := by
  refine respects_raw.bind fun r => ?_
  cases r with
  | none => exact respects_pure _
  | some t => exact .get (fun m n h => by rw [h.scopes]) fun _ => respects_pure _

@[grind .] theorem respects_skip (t : Token) (atElse atCase : Bool) (part : SkippedPart) :
    (Conditional.skip t atElse atCase part).Respects P := by
  refine .loop (fun depth => respects_nextTag.bind fun r => ?_) _
  grind

@[grind .] theorem respects_openBranch (b : Branch) : (Conditional.openBranch b).Respects P :=
  Compositional.openBranch b

@[grind .] theorem respects_choose (t : Token) (condition : Bool) :
    (Conditional.choose t condition).Respects P := by
  unfold Conditional.choose
  grind

@[grind .] theorem respects_chooseCase (t : Token) (n : Int) :
    (Conditional.chooseCase t n).Respects P := by
  refine .loop (fun n => ?_) n
  grind

@[grind .] theorem relates_numbersCompare (hx : ∀ t, (x t).Relates P (x' t)) :
    (Conditional.numbersCompare x).Relates P (Conditional.numbersCompare x') := by
  unfold Conditional.numbersCompare
  grind

@[grind .] theorem respects_meaningsAgree : Conditional.meaningsAgree.Respects P := by
  have hs : Stream.raw.Respects P := respects_raw
  exact (relates_nextOr hs _).bind fun a => (relates_nextOr hs _).bind fun b =>
    .get (fun m n h => by rw [h.scopes]) fun _ => respects_pure _

@[grind .] theorem respects_nextIsDefined : Conditional.nextIsDefined.Respects P := by
  have hs : Stream.raw.Respects P := respects_raw
  exact (relates_nextOr hs _).bind fun t =>
    .get (fun m n h => by rw [h.scopes]) fun _ => respects_pure _

@[grind .] theorem respects_passOver (part : SkippedPart) (b : Branch) :
    (Conditional.passOver part b).Respects P :=
  (respects_skip b.token _ _ _).bind fun _ => respects_pure _

theorem relates_leave {after after' : Branch → Run Unit} (h : ∀ b, (after b).Relates P (after' b))
    (t : Token) (d : Divider) :
    (Conditional.leave t d after).Relates P (Conditional.leave t d after') :=
  Compositional.leave t d h

@[grind .] theorem respects_endCase (t : Token) : (Conditional.endCase t).Respects P := by
  rw [Conditional.endCase_eq_leave]
  exact relates_leave (respects_passOver _) t _

@[grind .] theorem respects_endHolding (t : Token) : (Conditional.endHolding t).Respects P := by
  rw [Conditional.endHolding_eq_leave]
  exact relates_leave (respects_passOver _) t _

@[grind .] theorem respects_endConditional (t : Token) : (Conditional.endConditional t).Respects P := by
  rw [Conditional.endConditional_eq_leave]
  exact relates_leave (fun _ => respects_pure _) t _

/-! ### Conversions and files -/

@[grind .] theorem respects_pushText (t : Token) (s : String) : (Conversion.pushText t s).Respects P :=
  respects_pushTokens _

@[grind .] theorem relates_decimal (hx : ∀ t, (x t).Relates P (x' t)) (t : Token) :
    (Conversion.decimal x t).Relates P (Conversion.decimal x' t) := by
  unfold Conversion.decimal
  grind

@[grind .] theorem relates_roman (hx : ∀ t, (x t).Relates P (x' t)) (t : Token) :
    (Conversion.roman x t).Relates P (Conversion.roman x' t) := by
  unfold Conversion.roman
  grind

@[grind .] theorem respects_spelling (t : Token) : (Conversion.spelling t).Respects P := by
  unfold Conversion.spelling
  grind

@[grind .] theorem respects_written (t : Token) : (Conversion.written t).Respects P := by
  unfold Conversion.written
  grind

@[grind .] theorem respects_meaning (t : Token) : (Conversion.meaning t).Respects P := by
  refine (relates_nextOr respects_raw _).bind fun target => ?_
  exact .get (fun m n h => by rw [h.builtIns, h.scopes]) fun m => respects_pushText _ _

@[grind .] theorem relates_name (hx : ∀ t, (x t).Relates P (x' t)) (t : Token) :
    (Conversion.name x t).Relates P (Conversion.name x' t) := by
  refine .bind (.loop (fun sofar => ?_) _) fun chars => ?_
  · refine (relates_nextOr (relates_expanded hx) _).bind fun next => ?_
    grind
  · exact Compositional.name _ (respects_pushTokens _)

@[grind .] theorem relates_fileName (hx : ∀ t, (x t).Relates P (x' t)) :
    (Inclusion.fileName x).Relates P (Inclusion.fileName x') := by
  refine (relates_skipSpaces respects_raw).bind fun _ => (relates_peek respects_raw).bind fun r => ?_
  split
  · exact relates_label hx
  · refine .loop (fun sofar => (relates_expanded hx).bind fun r => ?_) _
    grind

@[grind .] theorem relates_input (hx : ∀ t, (x t).Relates P (x' t)) (t : Token) :
    (Inclusion.input x t).Relates P (Inclusion.input x' t) := by
  refine (relates_fileName hx).bind fun name => ?_
  split
  · exact respects_fail _
  · refine .get (fun m n h => ?_) fun m => ?_
    · rw [h.workingDirectory, h.files, h.config, h.fileCount]
    · grind

@[grind .] theorem respects_endInput : Inclusion.endInput.Respects P :=
  Compositional.endInput

/-! ### Macros -/

@[grind .] theorem respects_matchLead (name : String) (lead : List Token) :
    (Macro.matchLead name lead).Respects P := by
  induction lead with
  | nil => exact respects_pure _
  | cons want rest ih =>
    unfold Macro.matchLead
    grind

@[grind .] theorem respects_undelimitedArgument (number : Nat) :
    (Macro.undelimitedArgument number).Respects P := by
  unfold Macro.undelimitedArgument
  grind

@[grind .] theorem respects_delimitedArgument (number : Nat) (delimiter : Matcher TokenValue) :
    (Macro.delimitedArgument number delimiter).Respects P := by
  unfold Macro.delimitedArgument
  grind

@[grind .] theorem respects_readArguments (number : Nat) (parameters : List Parameter) :
    (Macro.readArguments number parameters).Respects P := by
  induction parameters generalizing number with
  | nil => exact respects_pure _
  | cons p rest ih =>
    unfold Macro.readArguments
    grind

@[grind .] theorem respects_traceCall (mac : Macro) (name : String) (arguments : List (List Token)) :
    (mac.traceCall name arguments).Respects P := by
  unfold Macro.traceCall
  refine .get (fun m n h => by rw [h.scopes]) fun m => ?_
  grind

@[grind .] theorem respects_replace (mac : Macro) (name : String) (arguments : List (List Token)) :
    (Macro.call.replace mac name arguments).Respects P := by
  unfold Macro.call.replace
  grind

@[grind .] theorem respects_call (mac : Macro) (t : Token) : (mac.call t).Respects P := by
  unfold Macro.call
  grind

/-! ### Expansion -/

@[grind .] theorem relates_afterNext (hx : ∀ t, (x t).Relates P (x' t)) (t : Token) :
    (Expansion.afterNext x t).Relates P (Expansion.afterNext x' t) := by
  refine respects_raw.bind fun first => ?_
  split
  · exact respects_fail _
  · refine respects_raw.bind fun second => ?_
    split
    · exact respects_fail _
    · refine .get (fun m n h => by rw [h.expansionEnabled, h.scopes]) fun m => ?_
      have h := hx
      grind

@[grind .] theorem respects_held (t : Token) : (Expansion.held t).Respects P := by
  refine .get (fun m n h => by rw [h.policy]) fun m => ?_
  grind

@[grind .] theorem respects_supplyDefault (t : Token) : (Expansion.supplyDefault t).Respects P := by
  unfold Expansion.supplyDefault
  grind

@[grind .] theorem relates_quiet {action action' : Run Unit} (h : action.Relates P action') :
    (Expansion.primitive.quiet action).Relates P (Expansion.primitive.quiet action') := by
  unfold Expansion.primitive.quiet
  grind

@[grind .] theorem respects_count (t : Token) : (Expansion.count t).Respects P :=
  Compositional.count t

end

/-! ### Values -/

/-- A relation that is respected by the command `\the`, too. -/
class Converting (P : Relation) : Prop extends Compositional P where
  value {x x' : Expander} (hx : ∀ t, (x t).Relates P (x' t)) (t : Token) :
    P (Conversion.value x t) (Conversion.value x' t)

section

variable {P : Relation} [Overflowing P] {x x' : Expander}

@[grind .] theorem respects_dimenText (d : Dimen) : (Conversion.dimenText d).Respects P := by
  unfold Conversion.dimenText
  grind

theorem relates_value (hx : ∀ t, (x t).Relates P (x' t)) (t : Token) :
    (Conversion.value x t).Relates P (Conversion.value x' t) := by
  refine (relates_nextOr (relates_expanded hx) _).bind fun target => ?_
  split
  · exact respects_fail _
  · refine (respects_lookup _).bind fun command => ?_
    split
    · refine (relates_variableOf hx _ _).bind fun v => ?_
      refine .get (fun m n h => by rw [h.scopes]) fun m => ?_
      grind
    · exact respects_fail _

instance : Converting P where
  value := relates_value

end

/-! ### Expansion as a whole -/

variable {P : Relation} [Converting P] {x x' : Expander}

@[grind .] theorem relates_the (hx : ∀ t, (x t).Relates P (x' t)) (t : Token) :
    (Conversion.value x t).Relates P (Conversion.value x' t) := Converting.value hx t

@[grind .] theorem relates_expansionPrimitive (hx : ∀ t, (x t).Relates P (x' t)) (t : Token)
    (p : ExpansionPrimitive) : (Expansion.primitive x t p).Relates P (Expansion.primitive x' t p) := by
  unfold Expansion.primitive
  cases p <;> grind

/-- Expansion with one more level is related, if it is with the levels there were. -/
theorem relates_expandWithin_succ {levels levels' : Nat}
    (h : ∀ t, (Expansion.expandWithin levels t).Relates P (Expansion.expandWithin levels' t))
    (t : Token) :
    (Expansion.expandWithin (levels + 1) t).Relates P (Expansion.expandWithin (levels' + 1) t) := by
  unfold Expansion.expandWithin
  split
  · exact respects_pure _
  · refine (respects_count t).bind fun _ => (respects_lookup _).bind fun command => ?_
    split
    · exact .deeper t ((relates_expansionPrimitive h t _).during _ t)
    · exact ((respects_call _ t).during _ t).bind fun _ => respects_pure _
    · exact respects_pure _

theorem respects_expandWithin (levels : Nat) (t : Token) :
    (Expansion.expandWithin levels t).Respects P := by
  induction levels generalizing t with
  | zero => exact respects_throw trivial
  | succ levels ih => exact relates_expandWithin_succ ih t

@[grind .] theorem respects_expand (t : Token) : (expand t).Respects P :=
  .get (fun m n h => by rw [h.config]) fun _ => respects_expandWithin _ t

@[grind .] theorem respects_main : Stream.main.Respects P := relates_expanded respects_expand

theorem respects_expandNext : Stream.expandNext.Respects P := by
  refine respects_raw.bind fun r => ?_
  cases r with
  | none => exact respects_pure _
  | some t =>
    refine .get (fun m n h => by rw [h.expansionEnabled, h.scopes]) fun m => ?_
    have h := respects_expand (P := P) t
    grind

end Gullet.Run
