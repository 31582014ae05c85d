import Gullet.Proofs.Stream.Remaining
import Gullet.Proofs.Unfolding.Guarding

/-!
# Runs that drop comments

A run can be stopped by a comment only if comments are kept, which is up to the host. As long as they are
dropped, what the tokeniser refuses is reported as a failure.
-/

namespace Gullet

namespace Lexer

variable {lx lx' : Lexer} {code : Char → CatCode}

theorem retain_controlSequence (lx : Lexer) (code : Char → CatCode) (key : SourceKey) :
    (lx.controlSequence code key).2.retain = lx.retain ∧
      (lx.controlSequence code key).1 ≠ .error .reversedComment := by
  unfold controlSequence
  split
  · exact ⟨rfl, fun h => by cases h⟩
  · split <;> exact ⟨rfl, fun h => by cases h⟩

/-- Only a lexer that keeps comments is stopped by one. -/
theorem retain_step (lx : Lexer) (code : Char → CatCode) (r : ReadChar) :
    (lx.step code r).2.retain = lx.retain ∧
      ((lx.step code r).1 = .fail .reversedComment → lx.retain = true) := by
  have hname := retain_controlSequence (lx.moveTo r.rest r.width) code (lx.keys.keyAt lx.offset)
  unfold step
  dsimp only
  split
  · split
    case h_1 t lx' hcs =>
      rw [hcs] at hname
      exact ⟨hname.1, fun h => by cases h⟩
    case h_2 e lx' hcs =>
      rw [hcs] at hname
      refine ⟨hname.1, fun he => ?_⟩
      cases he
      exact absurd rfl hname.2
  · split <;> exact ⟨rfl, fun h => by cases h⟩
  · cases lx.state <;> exact ⟨rfl, fun h => by cases h⟩
  · by_cases hretain : lx.retain = true
    · refine ⟨?_, fun _ => hretain⟩
      rw [if_pos hretain]
      split <;> rfl
    · rw [if_neg hretain]
      exact ⟨rfl, fun h => by cases h⟩
  · exact ⟨rfl, fun h => by cases h⟩
  · exact ⟨rfl, fun h => by cases h⟩
  · split <;> exact ⟨rfl, fun h => by cases h⟩

theorem retain_next (lx : Lexer) (code : Char → CatCode) :
    (lx.next code).2.retain = lx.retain ∧
      ((lx.next code).1 = .error .reversedComment → lx.retain = true) := by
  fun_induction Lexer.next lx code with
  | case1 lx hr => exact ⟨rfl, fun h => by cases h⟩
  | case2 lx r hr t lx' hs =>
    have hstep := lx.retain_step code r
    rw [hs] at hstep
    exact ⟨hstep.1, fun h => by cases h⟩
  | case3 lx r hr e lx' hs =>
    have hstep := lx.retain_step code r
    rw [hs] at hstep
    refine ⟨hstep.1, fun he => ?_⟩
    cases he
    exact hstep.2 rfl
  | case4 lx r hr lx' hs hlt ih =>
    have hstep := lx.retain_step code r
    rw [hs] at hstep
    obtain ⟨hretain, hstopped⟩ := ih
    exact ⟨hretain.trans hstep.1, fun he => hstep.1 ▸ hstopped he⟩

end Lexer

namespace Input

/-- Only sources that keep comments are stopped by one. -/
theorem read_ne_reversedComment {code : Char → CatCode} {report : Bool} (onTop : Bool)
    {sources : List InputSource} (h : EveryLexer (fun lexer => lexer.retain = false) sources) :
    (read code report onTop sources).result ≠ .error .reversedComment := by
  induction sources generalizing onTop with
  | nil => exact fun h => by cases h
  | cons s below ih =>
    obtain ⟨hlexers, hrest⟩ := everyLexer_cons.1 h
    unfold read
    cases s.pending.pop? with
    | some popped => exact fun h => by cases h
    | none =>
      cases hk : s.kind with
      | region mode => exact fun h => by cases h
      | bottom | capture => exact ih false hrest
      | file lexer =>
        have hstopped := (lexer.retain_next code).2
        rw [hlexers lexer hk] at hstopped
        dsimp only
        split
        case h_1 => exact fun h => by cases h
        case h_2 e he =>
          rintro ⟨⟩
          exact absurd (hstopped he) Bool.false_ne_true
        case h_3 =>
          split
          · exact ih true hrest
          · exact ih false hrest

end Input

/-- What stops the run is no comment. -/
def Halt.AtNoComment (halt : Halt) (_ : Machine) : Prop := halt ≠ .reversedSlice

namespace Machine

/-- Comments are dropped, in the texts that are open and in those that will be opened. -/
structure DropsComments (m : Machine) : Prop where
  config : m.config.retainComments = false
  lexers : Input.EveryLexer (fun lexer => lexer.retain = false) m.input.sources

variable {m m' : Machine}

theorem DropsComments.of_eq (h : m.DropsComments) (hconfig : m'.config = m.config)
    (hinput : m'.input = m.input) : m'.DropsComments := by
  obtain ⟨hretain, hlexers⟩ := h
  rw [← hconfig] at hretain
  rw [← hinput] at hlexers
  exact ⟨hretain, hlexers⟩

instance : Unfolding (Inherits DropsComments) where
  refl _ h := h
  trans _ _ _ h h' := h' ∘ h
  read m h := ⟨h.config, Input.everyLexer_read _ _
    (fun lexer hlexer => (lexer.retain_next m.codeOf).1.trans hlexer) (fun _ hlexer => hlexer) h.lexers⟩
  skip _ _ h := h.of_eq rfl rfl
  push _ ts h := ⟨h.config, Input.everyLexer_pushAll h.lexers ts⟩
  announce _ _ h := h.of_eq rfl rfl
  put _ _ _ h := h.of_eq rfl rfl
  name _ _ _ h := h.of_eq rfl rfl
  openBranch _ _ h := h.of_eq rfl rfl
  closeBranch _ h := h.of_eq rfl rfl
  count _ h := h.of_eq rfl rfl
  openSource m origin content h := by
    refine ⟨h.config, Input.everyLexer_cons.2 ⟨fun lexer hl => ?_, h.lexers⟩⟩
    cases hl
    exact h.config
  endInput _ h := ⟨h.config, Input.everyLexer_endTopFile (fun _ hlexer => hlexer) h.lexers⟩
  region {m m'} l h hm := by
    have hinside := h ⟨hm.config, Input.everyLexer_region hm.lexers l⟩
    refine ⟨hinside.config, fun s hs => hinside.lexers s ?_⟩
    exact List.mem_of_mem_drop (i := m'.input.sources.length - m.input.sources.length)
      (by simpa [leaveRegion, Run.closeAbove, List.splitAt_eq] using hs)
  deeper h hm := (h (hm.of_eq rfl rfl)).of_eq rfl rfl
  shielding h hm := (h (hm.of_eq rfl rfl)).of_eq rfl rfl

/-- While comments are dropped, none stops a run. -/
instance : ExecutionGuard DropsComments Halt.AtNoComment where
  unfolding := inferInstance
  orderly halt h _ hstopped := by
    rw [hstopped] at h
    exact h
  raw {halt m m'} hm h := by
    rintro rfl
    rcases Stream.halt_of_raw h with ⟨d, hd⟩ | ⟨-, hresult⟩
    · cases hd
    · exact Input.read_ne_reversedComment true hm.lexers hresult
  enterRegion l h := ⟨h.config, Input.everyLexer_region h.lexers l⟩
  leaveRegion _ h := h
  nest _ _ h := h.of_eq rfl rfl
  unnest _ _ h := h
  alter _ _ hinput hconfig _ h := h.of_eq hconfig hinput
  change _ h := h.of_eq rfl rfl
  bindToken _ _ _ h := h.of_eq rfl rfl
  restore _ h := h

end Machine

namespace Run

open Machine

instance : Overflowing (Guarding DropsComments Halt.AtNoComment) where
  overflow _ hm := .of_error rfl hm nofun

instance : Enacting (Guarding DropsComments Halt.AtNoComment) := enacting_guarding relates_value

instance : Assigning (Guarding DropsComments Halt.AtNoComment) where
  write _ _ _ hm := guardedAt_modify (hm.of_eq rfl rfl)

instance : Writing (Guarding DropsComments Halt.AtNoComment) where
  write _ _ _ hm := guardedAt_emit _ hm

end Run

end Gullet
