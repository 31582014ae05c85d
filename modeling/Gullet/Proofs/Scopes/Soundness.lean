import Gullet.Proofs.Registers.Words
import Gullet.Proofs.Scope.Always
import Gullet.Proofs.Scopes.History
import Gullet.Proofs.Unfolding.Executing

/-!
# Sound scopes

What is subject to grouping is sound if every number is a word and every macro is well formed, now and
after groups have been closed. The changes that bring about something else are told apart: they write a
number that is no word, or bind a macro that is not well formed.
-/

namespace Gullet

namespace Scopes

/-- Every number is a word and every macro is well formed, now and after groups have been closed. -/
structure Sound (s : Scopes) : Prop where
  ints : s.store.ints.Always fun n => Word.fits n = true
  dimens : s.store.dimens.Always fun d => Word.fits d.scaled = true
  bindings : s.bindings.Always Command.WellFormed

namespace Sound

variable {s : Scopes} {scope : Scope}

theorem holdsWords (h : s.Sound) : s.store.HoldsWords where
  int v := by
    unfold Store.int
    cases hv : s.store.ints.get? v with
    | none => decide
    | some n => exact h.ints.get? hv
  dimen index := by
    unfold Store.dimen
    cases hv : s.store.dimens.get? index with
    | none => decide
    | some d => exact h.dimens.get? hv

theorem wellFormed_lookup (h : s.Sound) (ref : CommandRef) : (s.bindings.lookup ref).WellFormed := by
  unfold Bindings.lookup
  cases hv : s.bindings.get? ref with
  | none => trivial
  | some command => exact h.bindings.get? hv

theorem lookup (h : s.Sound) (ref : CommandRef) : (s.bindings.lookup ref).WellDelimited :=
  (h.wellFormed_lookup ref).wellDelimited

theorem meaningOf (h : s.Sound) (v : TokenValue) : (s.bindings.meaningOf v).WellFormed := by
  cases v with
  | command ref => exact h.wellFormed_lookup ref
  | char category c => trivial

theorem writeInt (h : s.Sound) (v : IntVariable) {n : Int} (hn : Word.fits n = true) :
    (s.apply (.written scope (.int v n))).Sound :=
  { h with ints := h.ints.insert scope v hn }

theorem writeDimen (h : s.Sound) (index : Nat) {d : Dimen} (hd : Word.fits d.scaled = true) :
    (s.apply (.written scope (.dimen index d))).Sound :=
  { h with dimens := h.dimens.insert scope index hd }

theorem mapSettings (h : s.Sound) (f : Settings → Settings) : (s.mapSettings f).Sound := by
  unfold Scopes.mapSettings
  split
  · exact { h with }
  · exact { h with }

/-- A tame change leaves sound scopes. -/
theorem apply (h : s.Sound) {c : Change} (hc : c.IsTame) : (s.apply c).Sound := by
  cases c with
  | opened g => exact ⟨h.ints.beginGroup, h.dimens.beginGroup, h.bindings.beginGroup⟩
  | closed g => exact ⟨h.ints.endGroup, h.dimens.endGroup, h.bindings.endGroup⟩
  | bound scope ref command => exact { h with bindings := h.bindings.insert scope ref hc }
  | written scope w =>
    cases w with
    | int v n => exact hc.elim
    | dimen index d => exact hc.elim
    | tokenList index ts => exact { h with }
    | catCode c code => exact { h with }
  | restyled settings => exact h.mapSettings fun _ => settings
  | verbatim =>
    show ({ s with store := verbatimStore s.store } : Scopes).Sound
    rw [verbatimStore_eq]
    exact { h with }
  | restored codes => exact { h with }

end Sound

/-- No command of the vocabulary is a macro. -/
theorem wellFormed_of_mem_vocabulary {b : BuiltIn} (hb : b ∈ vocabulary) :
    b.command.WellFormed := by
  have hall : vocabulary.all (·.command.macro?.isNone) = true := by rfl
  exact Command.wellFormed_of_macro? (Option.isNone_iff_eq_none.1 (List.all_eq_true.1 hall b hb))

/-- At the start there are no macros, and all registers are empty. -/
theorem sound_standard : Machine.standard.scopes.Sound where
  ints := .of_undo_nil rfl fun k v hv => by
    have hnone : ({} : ScopedMap IntVariable Int).get? k = none := by simp [ScopedMap.get?]
    cases hnone.symm.trans hv
  dimens := .of_undo_nil rfl fun k v hv => by
    have hnone : ({} : ScopedMap Nat Dimen).get? k = none := by simp [ScopedMap.get?]
    cases hnone.symm.trans hv
  bindings := by
    refine (ScopedMap.Always.ofList fun e he => ?_).insertGlobal _ trivial
    obtain ⟨b, hb, rfl⟩ := List.mem_map.1 he
    exact wellFormed_of_mem_vocabulary hb

end Scopes

end Gullet
