import Gullet.Proofs.Evolution.Acts
import Gullet.Proofs.Input.Taking

/-!
# What evolution leaves alone

Limits stay as they are, the levels of nesting are left as they were entered, expansions are only ever
counted up, and lexers count their bytes right.
-/

namespace Gullet.Machine

/-- What every evolution keeps. -/
structure Continues (m m' : Machine) : Prop where
  config : m'.config = m.config
  expansionDepth : m'.expansionDepth = m.expansionDepth
  fullExpansions : m'.fullExpansions = m.fullExpansions
  expansions : m.expansions ≤ m'.expansions
  accounted : Input.Accounted m.input.sources → Input.Accounted m'.input.sources

namespace Continues

variable {m m' m'' : Machine}

theorem refl (m : Machine) : m.Continues m := ⟨rfl, rfl, rfl, Nat.le_refl _, id⟩

theorem trans (h : m.Continues m') (h' : m'.Continues m'') : m.Continues m'' where
  config := h'.config.trans h.config
  expansionDepth := h'.expansionDepth.trans h.expansionDepth
  fullExpansions := h'.fullExpansions.trans h.fullExpansions
  expansions := Nat.le_trans h.expansions h'.expansions
  accounted := h'.accounted ∘ h.accounted

/-- An act that changes nothing of this but the input. -/
theorem of_input (i : Input) (h : Input.Accounted m.input.sources → Input.Accounted i.sources) :
    m.Continues { m with input := i } := ⟨rfl, rfl, rfl, Nat.le_refl _, h⟩

theorem expansionsLeft_le (h : m.Continues m') : m'.expansionsLeft ≤ m.expansionsLeft := by
  have hexpansions := h.expansions
  unfold Machine.expansionsLeft
  rw [h.config]
  omega

end Continues

/-- The sources that are kept when those above a height are closed are among the sources before. -/
theorem accounted_closeAbove (height : Nat) {m : Machine} (h : Input.Accounted m.input.sources) :
    Input.Accounted (Run.closeAbove height m).2.input.sources := by
  intro s hs
  refine h s (List.mem_of_mem_drop (i := m.input.sources.length - height) ?_)
  simpa [Run.closeAbove, List.splitAt_eq] using hs

theorem Continues.leaveRegion {m m' : Machine} {l : TokenList} (h : (m.inRegion l).Continues m') :
    m.Continues (m.leaveRegion m') where
  config := h.config
  expansionDepth := congrArg (· - 1) h.expansionDepth
  fullExpansions := h.fullExpansions
  expansions := h.expansions
  accounted ha :=
    accounted_closeAbove m.input.sources.length (h.accounted (Input.accounted_region ha l))

theorem Reads.continues {m m' : Machine} (h : m.Reads m') : m.Continues m' := by
  induction h with
  | refl m => exact .refl m
  | trans h h' ih ih' => exact ih.trans ih'
  | read m => exact .of_input _ (Input.accounted_read _ _ _)
  | skip m c => exact ⟨rfl, rfl, rfl, Nat.le_refl _, id⟩

/-- **Every evolution continues what was there.** -/
theorem Evolves.continues {m m' : Machine} (h : m.Evolves m') : m.Continues m' := by
  induction h with
  | refl m => exact .refl m
  | trans h h' ih ih' => exact ih.trans ih'
  | reads h => exact h.continues
  | push m ts => exact .of_input _ fun ha => Input.accounted_pushAll ha ts
  | endInput m => exact ⟨rfl, rfl, rfl, Nat.le_refl _, Input.accounted_endTopFile⟩
  | count m => exact ⟨rfl, rfl, rfl, Nat.le_succ _, id⟩
  | openSource m origin content =>
    refine ⟨rfl, rfl, rfl, Nat.le_refl _, fun ha => ?_⟩
    refine Input.accounted_cons.2 ⟨fun lexer hl => ?_, ha⟩
    cases hl
    exact .start _ _ _
  | @region m m' l h ih => exact ih.leaveRegion
  | @deeper m m' h ih =>
    exact ⟨ih.config, congrArg (· - 1) ih.expansionDepth, ih.fullExpansions, ih.expansions, ih.accounted⟩
  | @shielding m m' h ih =>
    exact ⟨ih.config, ih.expansionDepth, congrArg (· - 1) ih.fullExpansions, ih.expansions, ih.accounted⟩
  | verbatim h =>
    obtain ⟨hc, hd, hf, he, ha⟩ := h.continues
    exact ⟨hc, hd, hf, he, ha⟩
  | _ => exact ⟨rfl, rfl, rfl, Nat.le_refl _, id⟩

end Gullet.Machine
