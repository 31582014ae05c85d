import Gullet.Proofs.Scopes.Vocabulary
import Gullet.Proofs.Unfolding.Keeping

/-!
# What expansion does to meanings

Whatever is expanded, a reference keeps its meaning, unless it has none and `\csname` makes it stand for
a command that does nothing. And the sources from the topmost region downwards stay what they are: files
are opened and closed above a region only. So a token that is left alone in a region is left alone as
long as the region is read, and afterwards.
-/

namespace Gullet

/-! ### The sources from the topmost region downwards -/

/-- How a source is read if it is a region. -/
def InputSource.mode? (s : InputSource) : Option ListMode :=
  match s.kind with
  | .region mode => some mode
  | _ => none

namespace Input

/-- The topmost region and the sources below it, each with its mode if it is a region. -/
def frame (sources : List InputSource) : List (Option ListMode) :=
  (sources.map (·.mode?)).dropWhile Option.isNone

variable {s s' : InputSource} {below : List InputSource}

theorem frame_cons_of_none (h : s.mode? = none) : frame (s :: below) = frame below := by
  simp [frame, h]

theorem frame_cons_of_some {mode : ListMode} (h : s.mode? = some mode) :
    frame (s :: below) = some mode :: below.map (·.mode?) := by
  simp [frame, h]

/-- A source may be replaced by one of the same kind. -/
theorem frame_cons_congr (h : s'.mode? = s.mode?) : frame (s' :: below) = frame (s :: below) := by
  simp [frame, h]

theorem frame_read (code : Char → CatCode) (report onTop : Bool) (sources : List InputSource) :
    frame (read code report onTop sources).sources = frame sources := by
  induction sources generalizing onTop with
  | nil => rfl
  | cons s below ih =>
    unfold read
    split
    · exact frame_cons_congr rfl
    · cases hk : s.kind with
      | region mode => rfl
      | bottom =>
        have hs : s.mode? = none := by simp [InputSource.mode?, hk]
        exact (frame_cons_of_none hs).trans ((ih false).trans (frame_cons_of_none hs).symm)
      | capture =>
        have hs : s.mode? = none := by simp [InputSource.mode?, hk]
        exact (frame_cons_of_none hs).trans ((ih false).trans (frame_cons_of_none hs).symm)
      | file lexer =>
        have hs : s.mode? = none := by simp [InputSource.mode?, hk]
        have hread (lx : Lexer) : ({ s with kind := .file lx } : InputSource).mode? = none := rfl
        dsimp only
        split
        · exact (frame_cons_of_none (hread _)).trans (frame_cons_of_none hs).symm
        · exact (frame_cons_of_none (hread _)).trans (frame_cons_of_none hs).symm
        · split
          · exact (ih true).trans (frame_cons_of_none hs).symm
          · exact (frame_cons_of_none (hread _)).trans ((ih false).trans (frame_cons_of_none hs).symm)

theorem frame_mapTop (i : Input) {f : InputSource → InputSource} (h : ∀ s, (f s).mode? = s.mode?) :
    frame (i.mapTop f).sources = frame i.sources := by
  unfold mapTop
  cases i.sources with
  | nil =>
    have htop : (f { kind := .bottom }).mode? = none := h _
    exact frame_cons_of_none htop
  | cons s below => exact frame_cons_congr (h s)

theorem frame_endTopFile (sources : List InputSource) :
    frame (endTopFile sources) = frame sources := by
  have hmodes : (endTopFile sources).map (·.mode?) = sources.map (·.mode?) := by
    induction sources with
    | nil => rfl
    | cons s below ih =>
      unfold endTopFile
      split
      · rename_i lexer hk
        simp [InputSource.mode?, hk]
      · rw [List.map_cons, List.map_cons, ih]
  rw [frame, hmodes, frame]

/-- The sources that are left when those above and including the topmost region are closed. -/
theorem modes_drop {sources : List InputSource} {mode : ListMode} {modes : List (Option ListMode)}
    (h : frame sources = some mode :: modes) :
    (sources.drop (sources.length - modes.length)).map (·.mode?) = modes := by
  have hframe : frame sources <:+ sources.map (·.mode?) := List.dropWhile_suffix _
  rw [h] at hframe
  have hsuffix := (List.suffix_cons _ modes).trans hframe
  rw [List.map_drop]
  simpa using (List.suffix_iff_eq_drop.1 hsuffix).symm

/-- Whether expansion is possible is up to the topmost region, if there is no file above it. -/
theorem expansionEnabled_of_frame {i : Input} {modes : List (Option ListMode)}
    (h : frame i.sources = some .stack :: modes) : i.expansionEnabled = true := by
  obtain ⟨sources⟩ := i
  induction sources with
  | nil => cases h
  | cons s below ih =>
    obtain ⟨pending, kind⟩ := s
    cases kind with
    | file lexer => rfl
    | region mode =>
      rw [frame_cons_of_some rfl] at h
      cases h
      rfl
    | bottom => exact ih ((frame_cons_of_none rfl).symm.trans h)
    | capture => exact ih ((frame_cons_of_none rfl).symm.trans h)

end Input

/-! ### Meanings -/

namespace Machine

/-- What expansion leaves as it is. -/
structure Maintains (m m' : Machine) : Prop where
  frame : Input.frame m'.input.sources = Input.frame m.input.sources
  /-- A reference that stands for something goes on to stand for it. -/
  meaning (ref : CommandRef) : m'.lookup ref = m.lookup ref ∨
    m.lookup ref = .undefined ∧ m'.lookup ref = .execution .relax

namespace Maintains

variable {m m' m'' : Machine}

theorem refl (m : Machine) : m.Maintains m := ⟨rfl, fun _ => .inl rfl⟩

theorem trans (h : m.Maintains m') (h' : m'.Maintains m'') : m.Maintains m'' where
  frame := h'.frame.trans h.frame
  meaning ref := by
    rcases h.meaning ref with heq | ⟨hundefined, hrelax⟩
    · rw [← heq]
      exact h'.meaning ref
    · refine .inr ⟨hundefined, ?_⟩
      rcases h'.meaning ref with heq | ⟨hundefined', -⟩
      · exact heq.trans hrelax
      · rw [hrelax] at hundefined'
        cases hundefined'

/-- An act that changes only the input, and not the frame. -/
theorem of_input (i : Input) (h : Input.frame i.sources = Input.frame m.input.sources) :
    m.Maintains { m with input := i } := ⟨h, fun _ => .inl rfl⟩

theorem leaveRegion {l : TokenList} (h : (m.inRegion l).Maintains m') :
    m.Maintains (m.leaveRegion m') where
  frame := by
    have hframe : Input.frame m'.input.sources = some l.mode :: m.input.sources.map (·.mode?) := h.frame
    have hmodes := Input.modes_drop hframe
    rw [List.length_map] at hmodes
    have hsources : (m.leaveRegion m').input.sources =
        m'.input.sources.drop (m'.input.sources.length - m.input.sources.length) := by
      simp [Machine.leaveRegion, Run.closeAbove, List.splitAt_eq]
    rw [Input.frame, hsources, hmodes, Input.frame]
  meaning := h.meaning

instance : Unfolding Maintains where
  refl := refl
  trans _ _ _ := trans
  read m := .of_input _ (Input.frame_read _ _ _ _)
  skip m c := ⟨rfl, fun _ => .inl rfl⟩
  push m ts := .of_input _ (Input.frame_mapTop _ fun _ => rfl)
  announce m path := ⟨rfl, fun _ => .inl rfl⟩
  put m output _ := ⟨rfl, fun _ => .inl rfl⟩
  name m ref h := by
    refine ⟨rfl, fun other => ?_⟩
    rw [lookup_change_bound]
    by_cases href : ref = other
    · subst href
      have hundefined : m.lookup ref = .undefined := by
        cases hm : m.lookup ref <;> simp [hm, Command.isDefined] at h ⊢
      exact .inr ⟨hundefined, if_pos rfl⟩
    · exact .inl (if_neg href)
  openBranch m b := ⟨rfl, fun _ => .inl rfl⟩
  closeBranch m := ⟨rfl, fun _ => .inl rfl⟩
  count m := ⟨rfl, fun _ => .inl rfl⟩
  openSource m origin content := ⟨Input.frame_cons_of_none rfl, fun _ => .inl rfl⟩
  endInput m := ⟨Input.frame_endTopFile _, fun _ => .inl rfl⟩
  region l := leaveRegion
  deeper h := ⟨h.frame, h.meaning⟩
  shielding h := ⟨h.frame, h.meaning⟩

end Maintains

end Machine

end Gullet
