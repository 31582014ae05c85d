import Gullet.Proofs.Unfolding.Acts
import Gullet.Proofs.Unfolding.Expansion

/-!
# Preorders that expansion keeps to

To keep to a preorder that allows the acts of expansion is something that the acts respect. So every
reader keeps to the preorder, and so does expansion as a whole.
-/

namespace Gullet.Run

variable {α : Type} {R : Machine → Machine → Prop}

/-- The first of two actions keeps to a preorder. -/
def Keeping (R : Machine → Machine → Prop) : Relation := fun _ a _ => a.Keeps R

variable [Machine.Unfolding R] {s : Stream} {x : Expander}

/-- The reference is bound only where it has been found undefined. -/
theorem Keeps.name {a : Run α} (ref : CommandRef) (ha : a.Keeps R) :
    (do
      let command ← lookup ref
      if command.isDefined = true then a
      else
        bindRef .inner ref (.execution .relax)
        a : Run α).Keeps R := by
  intro m
  rw [bind_of_ok (lookup_eval _ m)]
  split
  · exact ha m
  · rename_i hundefined
    exact trans_of R (Machine.Unfolding.name (R := R) m (Bool.eq_false_iff.2 hundefined)) (ha _)

theorem keeps_count (t : Token) : (Expansion.count t).Keeps R := by
  refine (keeps_modify Machine.Unfolding.count).bind fun _ => keeps_get.bind fun m => ?_
  split
  · exact keeps_fail _
  · exact keeps_pure _

theorem Keeps.leave {after : Branch → Run Unit} (t : Token) (d : Divider)
    (h : ∀ b, (after b).Keeps R) : (Conditional.leave t d after).Keeps R := by
  have hclose : Conditional.closeBranch.Keeps R := keeps_modify Machine.Unfolding.closeBranch
  refine keeps_get.bind fun m => ?_
  split
  · split
    · exact hclose.bind fun _ => h _
    · exact keeps_fail _
  · exact keeps_fail _

instance : Overflowing (Keeping R) where
  pure x := keeps_pure x
  throw _ := keeps_throw _
  overflow := keeps_throw _
  bind ha hf := Keeps.bind_of_mayGive ha hf
  get h := keeps_get.bind fun m => h m m (.refl m)
  during operation t ha := Keeps.during operation t ha
  loop h b := Keeps.loop h b
  fix h := Keeps.fix fun again hagain => h again again hagain
  raw := keeps_raw
  pushTokens ts := keeps_pushTokens ts
  announce path := keeps_announce path
  writeLog s := keeps_writeLog s
  writeTerminal s := keeps_writeTerminal s
  name ref ha := Keeps.name ref ha
  openBranch b := keeps_modify fun m => Machine.Unfolding.openBranch m b
  leave t d h := Keeps.leave t d h
  count := keeps_count
  openSource origin content := keeps_openSource origin content
  endInput := keeps_modify Machine.Unfolding.endInput
  region l ha := Keeps.region l ha
  deeper t ha := Keeps.deeper t ha
  shielding ha := Keeps.shielding ha

/-! ### Readers -/

omit [Machine.Unfolding R] in
theorem Keeps.respects {a : Run α} (ha : a.Keeps R) : a.Respects (Keeping R) := ha

@[grind .] theorem keeps_nextOr (hs : s.Keeps R) (during : Activity) : (s.nextOr during).Keeps R :=
  relates_nextOr hs.respects during

@[grind .] theorem keeps_take? (hs : s.Keeps R) (p : TokenValue → Option α) : (s.take? p).Keeps R :=
  relates_take? hs.respects p

theorem keeps_expandedRound (hx : ∀ t, (x t).Keeps R) : (Stream.expandedRound x ()).Keeps R :=
  relates_expandedRound fun t => (hx t).respects

@[grind .] theorem keeps_expandFully (hx : ∀ t, (x t).Keeps R) (ts : List Token) :
    (Stream.expandFully x ts).Keeps R := relates_expandFully (fun t => (hx t).respects) ts

@[grind .] theorem keeps_keyword (hs : s.Keeps R) (word : String) : (s.keyword word).Keeps R :=
  relates_keyword hs.respects word

@[grind .] theorem keeps_optionalEquals (hs : s.Keeps R) : s.optionalEquals.Keeps R :=
  relates_optionalEquals hs.respects

theorem keeps_signs (hs : s.Keeps R) : (Reader.signs s).Keeps R := relates_signs hs.respects

@[grind .] theorem keeps_variableOf (hx : ∀ t, (x t).Keeps R) (t : Token) (v : VariableCommand) :
    (Reader.variableOf x t v).Keeps R := relates_variableOf (fun t => (hx t).respects) t v

@[grind .] theorem keeps_number (hx : ∀ t, (x t).Keeps R) : (Reader.number x).Keeps R :=
  relates_number fun t => (hx t).respects

@[grind .] theorem keeps_natural (hx : ∀ t, (x t).Keeps R) (bound : Nat) :
    (Reader.natural x bound).Keeps R := relates_natural (fun t => (hx t).respects) bound

@[grind .] theorem keeps_catCode (hx : ∀ t, (x t).Keeps R) : (Reader.catCode x).Keeps R :=
  relates_catCode fun t => (hx t).respects

theorem keeps_scaled (hx : ∀ t, (x t).Keeps R) (whole : Int) (part : Dimen) :
    (Reader.scaled x whole part).Keeps R := relates_scaled (fun t => (hx t).respects) whole part

@[grind .] theorem keeps_dimen (hx : ∀ t, (x t).Keeps R) : (Reader.dimen x).Keeps R :=
  relates_dimen fun t => (hx t).respects

@[grind .] theorem keeps_finishBalanced (hs : s.Keeps R) (opener : Token) :
    (Reader.finishBalanced s opener).Keeps R := relates_finishBalanced hs.respects opener

@[grind .] theorem keeps_argument : Reader.argument.Keeps R := respects_argument (P := Keeping R)

@[grind .] theorem keeps_optionalArgument : Reader.optionalArgument.Keeps R :=
  respects_optionalArgument (P := Keeping R)

@[grind .] theorem keeps_label (hx : ∀ t, (x t).Keeps R) : (Reader.label x).Keeps R :=
  relates_label fun t => (hx t).respects

@[grind .] theorem keeps_modifier (c : Char) : (Reader.modifier c).Keeps R :=
  respects_modifier (P := Keeping R) c

@[grind .] theorem keeps_object (hx : ∀ t, (x t).Keeps R) : (Reader.object x).Keeps R :=
  relates_object fun t => (hx t).respects

@[grind .] theorem keeps_tokenList (hx : ∀ t, (x t).Keeps R) : (Reader.tokenList x).Keeps R :=
  relates_tokenList fun t => (hx t).respects

@[grind .] theorem keeps_commandRef : Reader.commandRef.Keeps R :=
  respects_commandRef (P := Keeping R)

/-! ### Expansion -/

@[grind .] theorem keeps_expand (t : Token) : (expand t).Keeps R :=
  respects_expand (P := Keeping R) t

@[grind .] theorem keeps_main : Stream.main.Keeps R := respects_main (P := Keeping R)

end Gullet.Run
