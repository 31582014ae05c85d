import Gullet.Proofs.Unfolding.Relating
import Gullet.Reader.Dimen

/-!
# What readers respect

Every reader respects the relations that the acts of expansion respect, if the stream that it reads and
the expander that it uses do. More generally, a reader is related to the same reader with another stream or
another expander, if these are related.
-/

namespace Gullet.Run

section

variable {α : Type} {P : Relation} [Compositional P] {s s' : Stream} {x x' : Expander}

/-! ### Streams -/

@[grind .] theorem relates_nextOr (hs : s.Relates P s') (during : Activity) :
    (s.nextOr during).Relates P (s'.nextOr during) := by
  refine hs.bind fun r => ?_
  cases r with
  | none => exact respects_fail _
  | some t => exact respects_pure t

@[grind .] theorem relates_peek (hs : s.Relates P s') : s.peek.Relates P s'.peek := by
  refine hs.bind fun r => ?_
  cases r with
  | none => exact respects_pure none
  | some t => exact (respects_pushBack t).bind fun _ => respects_pure _

@[grind .] theorem relates_take? (hs : s.Relates P s') (p : TokenValue → Option α) :
    (s.take? p).Relates P (s'.take? p) := by
  refine hs.bind fun r => ?_
  cases r with
  | none => exact respects_pure none
  | some t =>
    dsimp only
    split
    · exact respects_pure _
    · exact (respects_pushBack t).bind fun _ => respects_pure none

@[grind .] theorem relates_takeSpace (hs : s.Relates P s') : s.takeSpace.Relates P s'.takeSpace :=
  (relates_take? hs _).bind fun _ => respects_pure _

@[grind .] theorem relates_skipSpaces (hs : s.Relates P s') : s.skipSpaces.Relates P s'.skipSpaces := by
  refine .loop (fun _ => (relates_takeSpace hs).bind fun isSpace => ?_) ()
  cases isSpace with
  | true => exact respects_pure _
  | false => exact respects_pure _

@[grind .] theorem relates_nextNonSpace (hs : s.Relates P s') (during : Activity) :
    (s.nextNonSpace during).Relates P (s'.nextNonSpace during) := by
  refine .loop (fun _ => (relates_nextOr hs during).bind fun t => ?_) ()
  split
  · exact respects_pure _
  · exact respects_pure _

@[grind .] theorem relates_drain (hs : s.Relates P s') : s.drain.Relates P s'.drain := by
  refine .loop (fun sofar => hs.bind fun r => ?_) []
  cases r with
  | none => exact respects_pure _
  | some t => exact respects_pure _

theorem relates_expandedRound (hx : ∀ t, (x t).Relates P (x' t)) :
    (Stream.expandedRound x ()).Relates P (Stream.expandedRound x' ()) := by
  refine respects_raw.bind fun r => ?_
  cases r with
  | none => exact respects_pure _
  | some t =>
    dsimp only
    split
    · exact respects_pure _
    · refine .get (fun m n h => ?_) fun m => ?_
      · rw [h.expansionEnabled, h.expands, h.lookup]
      · have h := hx t
        grind

@[grind .] theorem relates_expanded (hx : ∀ t, (x t).Relates P (x' t)) :
    (Stream.expanded x).Relates P (Stream.expanded x') := .loop (fun _ => relates_expandedRound hx) ()

@[grind .] theorem relates_expandFully (hx : ∀ t, (x t).Relates P (x' t)) (ts : List Token) :
    (Stream.expandFully x ts).Relates P (Stream.expandFully x' ts) := by
  unfold Stream.expandFully
  grind

@[grind .] theorem relates_takeKeyword (hs : s.Relates P s') (word : List Char) (taken : List Token) :
    (s.takeKeyword word taken).Relates P (s'.takeKeyword word taken) := by
  induction word generalizing taken with
  | nil => exact respects_pure _
  | cons want rest ih =>
    refine hs.bind fun r => ?_
    cases r with
    | none => grind
    | some t => grind

@[grind .] theorem relates_keyword (hs : s.Relates P s') (word : String) :
    (s.keyword word).Relates P (s'.keyword word) := by
  unfold Stream.keyword
  grind

@[grind .] theorem relates_optionalEquals (hs : s.Relates P s') :
    s.optionalEquals.Relates P s'.optionalEquals := by
  refine .loop (fun _ => (relates_take? hs _).bind fun found => ?_) _
  grind

@[grind .] theorem relates_relation (hs : s.Relates P s') : s.relation.Relates P s'.relation := by
  refine (relates_skipSpaces hs).bind fun _ => hs.bind fun r => ?_
  cases r with
  | none => exact respects_fail _
  | some t => grind

/-! ### Numbers -/

@[grind .] theorem relates_signs (hs : s.Relates P s') :
    (Reader.signs s).Relates P (Reader.signs s') := by
  refine .loop (fun negative => (relates_take? hs _).bind fun sign => ?_) _
  cases sign with
  | none => exact respects_pure _
  | some minus => exact respects_pure _

@[grind .] theorem relates_digits (hs : s.Relates P s') (r : Radix) (soFar : Nat) (started : Bool) :
    (Reader.digits s r soFar started).Relates P (Reader.digits s' r soFar started) := by
  refine .bind (.loop (fun b => ?_) _) fun b => ?_
  · refine hs.bind fun r => ?_
    grind
  · grind

@[grind .] theorem respects_character : Reader.character.Respects P := by
  unfold Reader.character
  grind

section

variable {number number' : Run (Token × Int)}

@[grind .] theorem relates_bounded (hn : number.Relates P number') (bound : Nat) :
    (Reader.bounded number bound).Relates P (Reader.bounded number' bound) := by
  unfold Reader.bounded
  grind

@[grind .] theorem relates_resolve (hn : number.Relates P number') (t : Token) (v : VariableCommand) :
    (Reader.resolve number t v).Relates P (Reader.resolve number' t v) := by
  cases v with
  | fixed v => exact respects_pure v
  | register kind => exact .during _ t ((relates_bounded hn _).bind fun _ => respects_pure _)
  | catCode => exact .during _ t ((relates_bounded hn _).bind fun _ => respects_pure _)

@[grind .] theorem relates_internalNumber (hn : number.Relates P number') (t : Token)
    (ref : CommandRef) :
    (Reader.internalNumber number t ref).Relates P (Reader.internalNumber number' t ref) := by
  refine (respects_lookup ref).bind fun command => ?_
  split
  · refine (relates_resolve hn t _).bind fun v => ?_
    cases v with
    | tokenList index => exact respects_fail _
    | _ => exact .get (fun m n h => by rw [h.scopes]) fun _ => respects_pure _
  · exact respects_fail _
  · exact respects_fail _

@[grind .] theorem relates_constant (hs : s.Relates P s') {n n' : Run Int} (hn : n.Relates P n') :
    (Reader.constant s n).Relates P (Reader.constant s' n') := by
  unfold Reader.constant
  grind

theorem relates_numberWith (hx : ∀ t, (x t).Relates P (x' t)) (hn : number.Relates P number') :
    (Reader.numberWith x number).Relates P (Reader.numberWith x' number') := by
  have hs := relates_expanded hx
  refine (relates_signs hs).bind fun negative => (relates_nextOr hs _).bind fun first => ?_
  dsimp only
  split
  · split
    · grind
    · grind
  · refine (relates_internalNumber hn first _).bind fun n => ?_
    grind
  · grind

end

@[grind .] theorem relates_numberAt (hx : ∀ t, (x t).Relates P (x' t)) :
    (Reader.numberAt x).Relates P (Reader.numberAt x') :=
  .fix fun _ _ hagain => relates_numberWith hx hagain

@[grind .] theorem relates_variableOf (hx : ∀ t, (x t).Relates P (x' t)) (t : Token)
    (v : VariableCommand) : (Reader.variableOf x t v).Relates P (Reader.variableOf x' t v) :=
  relates_resolve (relates_numberAt hx) t v

@[grind .] theorem relates_number (hx : ∀ t, (x t).Relates P (x' t)) :
    (Reader.number x).Relates P (Reader.number x') := by
  unfold Reader.number
  grind

@[grind .] theorem relates_natural (hx : ∀ t, (x t).Relates P (x' t)) (bound : Nat) :
    (Reader.natural x bound).Relates P (Reader.natural x' bound) :=
  relates_bounded (relates_numberAt hx) bound

@[grind .] theorem relates_catCode (hx : ∀ t, (x t).Relates P (x' t)) :
    (Reader.catCode x).Relates P (Reader.catCode x') := by
  unfold Reader.catCode
  grind

/-! ### Parts of dimensions -/

@[grind .] theorem relates_decimals (hs : s.Relates P s') :
    (Reader.decimals s).Relates P (Reader.decimals s') := by
  refine .bind (.loop (fun sofar => ?_) _) fun digits => respects_pure _
  refine hs.bind fun r => ?_
  grind

@[grind .] theorem relates_unit_go (hs : s.Relates P s') (units : List (String × LengthUnit)) :
    (Reader.unit.go s units).Relates P (Reader.unit.go s' units) := by
  induction units with
  | nil =>
    unfold Reader.unit.go
    grind
  | cons u rest ih =>
    unfold Reader.unit.go
    grind

@[grind .] theorem relates_unit (hs : s.Relates P s') : (Reader.unit s).Relates P (Reader.unit s') :=
  relates_unit_go hs _

@[grind .] theorem relates_scaled (hx : ∀ t, (x t).Relates P (x' t)) (whole : Int) (part : Dimen) :
    (Reader.scaled x whole part).Relates P (Reader.scaled x' whole part) := by
  have hs := relates_expanded hx
  refine (relates_skipSpaces hs).bind fun _ => hs.bind fun next => ?_
  split <;> grind

/-! ### Arguments -/

@[grind .] theorem relates_balanced (hs : s.Relates P s') :
    (Reader.balanced s).Relates P (Reader.balanced s') := by
  refine .loop (fun sofar => hs.bind fun r => ?_) _
  cases r with
  | none => exact respects_pure _
  | some t =>
    dsimp only
    split
    · exact respects_pure _
    · split
      · split
        · exact respects_pure _
        · exact respects_pure _
      · exact respects_pure _

@[grind .] theorem relates_finishBalanced (hs : s.Relates P s') (opener : Token) :
    (Reader.finishBalanced s opener).Relates P (Reader.finishBalanced s' opener) := by
  refine (relates_balanced hs).bind fun text => ?_
  dsimp only
  split
  · exact respects_pure _
  · exact respects_fail _

@[grind .] theorem respects_argument : Reader.argument.Respects P := by
  refine (relates_skipSpaces respects_raw).bind fun _ => (relates_nextOr respects_raw _).bind fun t => ?_
  split
  · exact relates_finishBalanced respects_raw t
  · split
    · exact respects_fail _
    · exact respects_pure _

@[grind .] theorem respects_takeOther (c : Char) : (Reader.takeOther c).Respects P := by
  unfold Reader.takeOther
  grind

@[grind .] theorem respects_optionalArgument : Reader.optionalArgument.Respects P := by
  unfold Reader.optionalArgument
  grind

@[grind .] theorem relates_label (hx : ∀ t, (x t).Relates P (x' t)) :
    (Reader.label x).Relates P (Reader.label x') :=
  respects_argument.bind fun ts => (relates_expandFully hx ts).bind fun _ => respects_pure _

@[grind .] theorem respects_modifier (c : Char) : (Reader.modifier c).Respects P := by
  unfold Reader.modifier
  grind

@[grind .] theorem relates_numericalArgument (hx : ∀ t, (x t).Relates P (x' t)) :
    (Reader.numericalArgument x).Relates P (Reader.numericalArgument x') := by
  refine respects_argument.bind fun ts => .bind (.region _ ?_) fun r => ?_
  · grind
  · grind

@[grind .] theorem relates_object (hx : ∀ t, (x t).Relates P (x' t)) :
    (Reader.object x).Relates P (Reader.object x') := by
  refine (relates_expanded hx).bind fun r => ?_
  cases r with
  | none => exact respects_pure _
  | some t => grind

@[grind .] theorem relates_tokenList (hx : ∀ t, (x t).Relates P (x' t)) :
    (Reader.tokenList x).Relates P (Reader.tokenList x') := by
  refine (relates_nextNonSpace (relates_expanded hx) _).bind fun t => ?_
  dsimp only
  split
  · grind
  · exact respects_fail _
  · refine (respects_lookup _).bind fun command => ?_
    split
    · refine (relates_variableOf hx t _).bind fun v => ?_
      split
      · exact .get (fun m n h => by rw [h.scopes]) fun _ => respects_pure _
      · exact respects_fail _
    · exact respects_fail _

@[grind .] theorem respects_commandRef : Reader.commandRef.Respects P := by
  unfold Reader.commandRef
  grind

end

/-! ### Dimensions -/

section

variable {P : Relation} [Overflowing P] {x x' : Expander}

@[grind .] theorem respects_overflow {α : Type} : (throw .overflow : Run α).Respects P :=
  Overflowing.overflow

@[grind .] theorem respects_negate (d : Dimen) : (Reader.negate d).Respects P := by
  unfold Reader.negate
  grind

@[grind .] theorem relates_finishDimen (hx : ∀ t, (x t).Relates P (x' t)) (negative : Bool)
    (first : Token) (whole : Int) (part : Dimen) :
    (Reader.finishDimen x negative first whole part).Relates P
      (Reader.finishDimen x' negative first whole part) := by
  unfold Reader.finishDimen
  grind

@[grind .] theorem relates_dimen (hx : ∀ t, (x t).Relates P (x' t)) :
    (Reader.dimen x).Relates P (Reader.dimen x') := by
  have hs := relates_expanded hx
  refine (relates_signs hs).bind fun negative => (relates_nextOr hs _).bind fun first => ?_
  dsimp only
  split
  · refine (relates_internalNumber (relates_numberAt hx) first _).bind fun n => ?_
    cases n with
    | integer n => grind
    | dimen d => grind
  · split
    · grind
    · split
      · refine (relates_digits hs _ _ _).bind fun n => ?_
        grind
      · grind

end

end Gullet.Run
