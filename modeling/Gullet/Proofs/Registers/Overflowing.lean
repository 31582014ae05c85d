import Gullet.Proofs.Registers.Reading
import Gullet.Proofs.Scopes.Soundness
import Gullet.Proofs.Stream.Remaining
import Gullet.Proofs.Unfolding.Guarding

/-!
# Where a number is too large

A run stops because a number is too large only where the negative of the least word is asked for: when a
dimension is read, when one is written into a text, and when one is written into a failure. Then a
register holds the least word. That every number is a word is what makes sure of this, and all that
execution writes into registers are words again.
-/

namespace Gullet

/-- If the run stops since a number is too large, a register holds the least word. -/
def Halt.AtLeastWord (halt : Halt) (m : Machine) : Prop :=
  halt = .overflow → m.scopes.store.HoldsLeast

namespace Machine

/-- What is subject to grouping is sound. -/
def IsSound (m : Machine) : Prop := m.scopes.Sound

instance : Unfolding (Inherits IsSound) where
  refl _ h := h
  trans _ _ _ h h' := h' ∘ h
  read _ h := h
  skip _ _ h := h
  push _ _ h := h
  announce _ _ h := h
  put _ _ _ h := h
  name _ ref _ h := Scopes.Sound.apply h (c := .bound .inner ref _) trivial
  openBranch _ _ h := h
  closeBranch _ h := h
  count _ h := h
  openSource _ _ _ h := h
  endInput _ h := h
  region _ h := h
  deeper h := h
  shielding h := h

/-- Reading tokens comes to no number. -/
instance : ExecutionGuard IsSound Halt.AtLeastWord where
  unfolding := inferInstance
  orderly halt h _ hstopped := by
    rw [hstopped] at h
    exact h.elim
  raw {halt m m'} _ h := by
    rintro rfl
    rcases Stream.halt_of_raw h with ⟨d, hd⟩ | ⟨hhalt, -⟩
    · cases hd
    · cases hhalt
  enterRegion _ h := h
  leaveRegion _ h := h
  nest _ _ h := h
  unnest _ _ h := h
  alter _ _ _ _ hscopes h := by
    unfold IsSound
    rw [hscopes]
    exact h
  change hc h := Scopes.Sound.apply h hc
  bindToken scope ref v h := Scopes.Sound.apply h (c := .bound scope ref _) (Scopes.Sound.meaningOf h v)
  restore _ h := h

end Machine

open Machine

/-- An action that leaves sound scopes behind, and stops since a number is too large only where a
register holds the least word. -/
abbrev Run.IsExcused {α : Type} (a : Run α) (m : Machine) : Prop :=
  a.GuardedAt IsSound Halt.AtLeastWord m

/-- Actions that are excused on all machines with sound scopes. -/
abbrev Run.Excusing : Run.Relation := Run.Guarding IsSound Halt.AtLeastWord

variable {m m' : Machine} {x : Expander}

/-! ### Dimensions that are written into a text -/

namespace Conversion

theorem isExcused_dimenText {d : Dimen} (hm : m.IsSound)
    (hd : d.scaled = Word.least → m.scopes.store.HoldsLeast) : (dimenText d).IsExcused m := by
  unfold dimenText
  split
  · rename_i hleast
    exact .of_error rfl hm fun _ => hd hleast
  · exact .of_ok rfl hm

/-- The value of a variable can be written, unless it is the least word in a dimension register. -/
theorem respects_value (hx : ∀ t, (x t).Respects Run.Excusing) (t : Token) :
    (value x t).Respects Run.Excusing := by
  have hs : (Stream.expanded x).Respects Run.Excusing := Run.relates_expanded hx
  refine (Run.relates_nextOr hs _).bind fun target => ?_
  split
  · exact Run.respects_fail _
  · refine (Run.respects_lookup _).bind fun command => ?_
    split
    · refine (Run.relates_variableOf hx _ _).bind fun v => ?_
      intro m hm
      refine Run.GuardedAt.bind (.of_ok (Run.get_eval m) hm) fun hr _ => ?_
      cases hr
      cases v with
      | dimen index =>
        have hheld := (hm.holdsWords.yields_dimen index).least
        exact (isExcused_dimenText hm hheld).bind fun _ => Run.respects_pushTokens (P := Run.Excusing) _ _
      | _ => exact Run.respects_pushTokens (P := Run.Excusing) _ m hm
    · exact Run.respects_fail _

end Conversion

namespace Run

instance : Enacting Excusing := enacting_guarding Conversion.respects_value

end Run

/-! ### Dimensions that are read -/

namespace Reader

theorem isExcused_negate {d : Dimen} (hm : m.IsSound)
    (hd : d.scaled = Word.least → m.scopes.store.HoldsLeast) : (negate d).IsExcused m := by
  unfold negate
  split
  · rename_i hleast
    exact .of_error rfl hm fun _ => hd hleast
  · exact .of_ok rfl hm

/-- A length is given its sign, unless it is a number of scaled points that is the least word. -/
theorem isExcused_finishDimen (hx : ∀ t, (x t).Respects Run.Excusing)
    (hkeeps : ∀ t, (x t).Keeps SameStore) {negative : Bool} {first : Token} {whole : Int}
    {part : Dimen} (hwhole : m.scopes.store.Yields whole)
    (hpart : 0 ≤ part.scaled ∧ part.scaled ≤ Dimen.unity) (hm : m.IsSound) :
    (finishDimen x negative first whole part).IsExcused m := by
  unfold finishDimen
  have hmagnitude := magnitude_cases hwhole negative
  generalize (if whole < 0 then (!negative, Word.wrap (-whole)) else (negative, whole)) = r at hmagnitude ⊢
  obtain ⟨turned, magnitude⟩ := r
  refine (Run.relates_scaled hx magnitude part m hm).bind fun {length m₁} hscaled hm₁ => ?_
  cases length with
  | none => exact Run.respects_fail (P := Run.Excusing) _ m₁ hm₁
  | some d =>
    cases turned with
    | false => exact .of_ok rfl hm₁
    | true =>
      refine isExcused_negate hm₁ fun hleast => ?_
      have hstore := (Run.keeps_scaled hkeeps magnitude part).store_eq hscaled
      rw [hstore]
      exact holdsLeast_of_scaled hmagnitude hpart hscaled hleast

/-- A dimension that a register holds is given its sign, unless it is the least word. -/
theorem respects_dimen (hx : ∀ t, (x t).Respects Run.Excusing) (hkeeps : ∀ t, (x t).Keeps SameStore) :
    (dimen x).Respects Run.Excusing := by
  have hs : (Stream.expanded x).Respects Run.Excusing := Run.relates_expanded hx
  rw [dimen_eq]
  refine (Run.relates_signs hs).bind fun negative => (Run.relates_nextOr hs _).bind fun first => ?_
  intro m hm
  refine (respects_dimenStart hx first m hm).bind fun {start m₁} hstart hm₁ => ?_
  have hfrom := isStart_of_dimenStart hkeeps hm.holdsWords hstart
  have hstore := (respects_dimenStart (P := Run.Keeping SameStore) hkeeps first).store_eq hstart
  rw [← hstore] at hfrom
  cases start with
  | inl d =>
    obtain ⟨index, rfl⟩ := hfrom
    cases negative with
    | false => exact .of_ok rfl hm₁
    | true => exact isExcused_negate hm₁ (hm₁.holdsWords.yields_dimen index).least
  | inr number => exact isExcused_finishDimen hx hkeeps hfrom.1 hfrom.2 hm₁

end Reader

/-! ### Numbers that are written into registers -/

namespace Assignment

variable {α : Type} {op : Arithmetic}

theorem isExcused_orOverflow {left : Run String} {right : Int} {a : Option α} (hm : m.IsSound)
    (hleft : left.IsExcused m) : (orOverflow op left right a).IsExcused m := by
  unfold orOverflow
  cases a with
  | some y => exact .of_ok rfl hm
  | none => exact hleft.bind fun _ => Run.respects_fail (P := Run.Excusing) _ _

theorem of_orOverflow {left : Run String} {right : Int} {a : Option α} {y : α}
    (h : orOverflow op left right a m = (.ok y, m')) : a = some y := by
  unfold orOverflow at h
  cases a with
  | some y' =>
    cases h
    rfl
  | none =>
    obtain ⟨_, _, -, h⟩ := Run.exists_of_bind_eq_ok h
    cases h

/-- Arithmetic on integers makes words. -/
theorem fits_of_onInteger {n r : Int} (h : onInteger op n m = (.ok r, m')) : Word.fits r = true := by
  obtain ⟨operand, m₁, -, h⟩ := Run.exists_of_bind_eq_ok h
  cases op with
  | advance =>
    cases h
    exact Word.fits_wrap _
  | multiply => exact Word.fits_of_checked? (of_orOverflow h)
  | divide =>
    dsimp only at h
    split at h
    · cases h
    · exact Word.fits_of_div? (of_orOverflow h)

/-- Arithmetic on dimensions makes words. -/
theorem fits_of_onDimen {d r : Dimen} (h : onDimen op d m = (.ok r, m')) :
    Word.fits r.scaled = true := by
  cases op with
  | advance =>
    obtain ⟨operand, m₁, -, h⟩ := Run.exists_of_bind_eq_ok h
    cases h
    exact Word.fits_wrap _
  | multiply =>
    obtain ⟨operand, m₁, -, h⟩ := Run.exists_of_bind_eq_ok h
    exact (Store.yields_of_isLegal (s := m.scopes.store) (Dimen.isLegal_of_mulAdd? (of_orOverflow h))).fits
  | divide =>
    obtain ⟨operand, m₁, -, h⟩ := Run.exists_of_bind_eq_ok h
    split at h
    · obtain ⟨_, _, -, h⟩ := Run.exists_of_bind_eq_ok h
      cases h
    · obtain ⟨q, hq, rfl⟩ := Option.map_eq_some_iff.1 (of_orOverflow h)
      exact Word.fits_of_div? hq

/-- Arithmetic on a dimension can be reported, unless the dimension is the least word. -/
theorem isExcused_onDimen {d : Dimen} (hm : m.IsSound)
    (hd : d.scaled = Word.least → m.scopes.store.HoldsLeast) : (onDimen op d).IsExcused m := by
  have hnumber : (Reader.number expand).Respects Run.Excusing := Run.relates_number Run.respects_expand
  have hstore {n : Int} {m₁ : Machine} (h : Reader.number expand m = (.ok n, m₁)) :
      m₁.scopes.store = m.scopes.store := (Run.keeps_number Run.keeps_expand).store_eq h
  cases op with
  | advance =>
    have hdimen := Reader.respects_dimen (x := expand) Run.respects_expand Run.keeps_expand
    exact (hdimen m hm).bind fun _ hm₁ => .of_ok rfl hm₁
  | multiply =>
    refine (hnumber m hm).bind fun hn hm₁ => isExcused_orOverflow hm₁ ?_
    exact Conversion.isExcused_dimenText hm₁ (by rwa [hstore hn])
  | divide =>
    refine (hnumber m hm).bind fun {n m₁} hn hm₁ => ?_
    have htext : (Conversion.dimenText d).IsExcused m₁ :=
      Conversion.isExcused_dimenText hm₁ (by rwa [hstore hn])
    split
    · exact htext.bind fun _ => Run.respects_fail (P := Run.Excusing) _ _
    · exact isExcused_orOverflow hm₁ htext

/-- A value that is assigned is a word. -/
theorem respects_assign (scope : Scope) (v : Variable) : (assign scope v).Respects Run.Excusing := by
  have hx (t : Token) : (expand t).Respects Run.Excusing := Run.respects_expand t
  have hkeeps (t : Token) : (expand t).Keeps SameStore := Run.keeps_expand t
  cases v with
  | int v =>
    intro m hm
    refine (Run.relates_number hx m hm).bind fun hn hm₁ => Run.guardedAt_modify ?_
    exact hm₁.writeInt v (Reader.yields_of_number hkeeps hm.holdsWords hn).fits
  | dimen index =>
    intro m hm
    refine (Reader.respects_dimen hx hkeeps m hm).bind fun hd hm₁ => Run.guardedAt_modify ?_
    exact hm₁.writeDimen index ((Reader.isReadFrom_of_dimen hm.holdsWords hd).yields hm.holdsWords).fits
  | tokenList index =>
    exact (Run.relates_tokenList hx).bind fun ts => Run.respects_writeTokenList scope index ts
  | catCode c => exact (Run.relates_catCode hx).bind fun code => Run.respects_writeCatCode scope c code

/-- What arithmetic makes is a word. -/
theorem respects_arithmetic (op : Arithmetic) (t : Token) :
    (arithmetic op t).Respects Run.Excusing := by
  refine Run.UsesUp.respects (Run.usesUp_of_takeScope fun scope => ?_) rfl
  refine Run.respects_target.bind fun (name, command) => ?_
  refine (Run.relates_variableOf Run.respects_expand name command).bind fun v => ?_
  refine (Run.relates_keyword Run.respects_main "by").bind fun _ => ?_
  cases v with
  | int i =>
    intro m hm
    refine Run.GuardedAt.bind (.of_ok (Run.get_eval m) hm) fun hr _ => ?_
    cases hr
    refine (Run.respects_onInteger (P := Run.Excusing) op _ m hm).bind fun hn hm₁ => ?_
    exact Run.guardedAt_modify (hm₁.writeInt i (fits_of_onInteger hn))
  | dimen index =>
    intro m hm
    refine Run.GuardedAt.bind (.of_ok (Run.get_eval m) hm) fun hr _ => ?_
    cases hr
    refine (isExcused_onDimen hm (hm.holdsWords.yields_dimen index).least).bind fun hd hm₁ => ?_
    exact Run.guardedAt_modify (hm₁.writeDimen index (fits_of_onDimen hd))
  | tokenList index => exact Run.respects_fail _
  | catCode c => exact Run.respects_fail _

end Assignment

namespace Run

instance : Executing Excusing where
  assign := Assignment.respects_assign
  arithmetic := Assignment.respects_arithmetic

instance : Writing Excusing where
  write _ _ _ hm := guardedAt_emit _ hm

end Run

end Gullet
