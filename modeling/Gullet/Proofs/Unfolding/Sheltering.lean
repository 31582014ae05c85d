import Gullet.Proofs.Input.Grafting
import Gullet.Proofs.Unfolding.Coupling

/-!
# What expansion can see below a region

Two machines run in parallel if they are the same except for what lies below a region. Expansion takes
them to machines that run in parallel again, and gives the same result in both: it neither sees nor
touches what lies below the region, except that it counts the open files and may leave the topmost one.

A loop stops when it makes no progress, and progress is measured on the whole input. So it is assumed
that neither of the runs is stopped for this reason.
-/

namespace Gullet

namespace Machine

/-- The machines are the same, but their sources stand on what has become of `s` and of `t`. -/
structure Parallel (mode : ListMode) (s t : List InputSource) (m n : Machine) : Prop where
  others : n = { m with input := n.input }
  standing : Input.Standing mode s t m.input.sources n.input.sources
  fileCount : Input.fileCount ⟨s⟩ = Input.fileCount ⟨t⟩

/-- On other sources a region is entered in parallel. -/
theorem parallel_inRegion (m : Machine) (l : TokenList) {i : Input}
    (hcount : i.fileCount = m.input.fileCount) :
    Parallel l.mode m.input.sources i.sources (m.inRegion l) (inRegion { m with input := i } l) :=
  ⟨rfl, ⟨_, _, .same, .region _⟩, hcount.symm⟩

/-- The function has nothing to do with the input. -/
def IgnoresInput (f : Machine → Machine) : Prop :=
  ∀ (m : Machine) (i : Input), f { m with input := i } = { f m with input := i }

namespace Parallel

variable {mode mode' : ListMode} {s t : List InputSource} {m n m' n' : Machine}

theorem exists_eq (h : m.Parallel mode s t n) :
    ∃ j : Input, n = { m with input := j } ∧ Input.Standing mode s t m.input.sources j.sources :=
  ⟨n.input, h.others, h.standing⟩

theorem looksLike (h : m.Parallel mode s t n) : m.LooksLike n := by
  have hcount := h.fileCount
  obtain ⟨j, rfl, s', t', hspared, hgrafted⟩ := h.exists_eq
  exact ⟨rfl, hgrafted.expansionEnabled, (hgrafted.fileCount (hspared.fileCount hcount)).symm⟩

/-- The input is replaced in both machines. -/
theorem withInput {i j : Input} (h : m.Parallel mode s t n)
    (hij : Input.Standing mode s t i.sources j.sources) :
    Parallel mode s t { m with input := i } { n with input := j } := by
  have hcount := h.fileCount
  obtain ⟨k, rfl, -⟩ := h.exists_eq
  exact ⟨rfl, hij, hcount⟩

/-- Something is done to both machines that has nothing to do with the input. -/
theorem map {f : Machine → Machine} (hf : Machine.IgnoresInput f)
    (h : m.Parallel mode s t n) : Parallel mode s t (f m) (f n) := by
  have hcount := h.fileCount
  obtain ⟨j, rfl, hstanding⟩ := h.exists_eq
  have hinput : (f m).input = m.input := congrArg (fun m => m.input) (hf m m.input)
  rw [hf m j]
  refine ⟨rfl, ?_, hcount⟩
  rw [hinput]
  exact hstanding

/-- Both machines enter a region; then what lies below it are all their sources. -/
theorem inRegion (h : m.Parallel mode s t n) (l : TokenList) :
    Parallel l.mode m.input.sources n.input.sources (m.inRegion l) (n.inRegion l) := by
  have hcount := h.looksLike.fileCount
  obtain ⟨j, rfl, -⟩ := h.exists_eq
  exact parallel_inRegion m l hcount

/-- When the region is closed, the same tokens are left in both machines. -/
theorem exists_closeAbove (h : Parallel mode' m.input.sources n.input.sources m' n') :
    ∃ rest x y, Input.Spared m.input.sources n.input.sources x y ∧
      Run.closeAbove m.input.sources.length m' = (rest, { m' with input := ⟨x⟩ }) ∧
      Run.closeAbove n.input.sources.length n' = (rest, { n' with input := ⟨y⟩ }) := by
  obtain ⟨x, y, hspared, hgrafted⟩ := h.standing
  obtain ⟨above, hx, hy⟩ := hgrafted.splitAt_below
  rw [hspared.length.1] at hx
  rw [hspared.length.2] at hy
  refine ⟨above.flatMap fun s => s.pending.tokens, x, y, hspared, ?_, ?_⟩
  · unfold Run.closeAbove
    rw [hx]
  · unfold Run.closeAbove
    rw [hy]

theorem leaveRegion (h : m.Parallel mode s t n)
    (hin : Parallel mode' m.input.sources n.input.sources m' n') :
    Parallel mode s t (m.leaveRegion m') (n.leaveRegion n') := by
  obtain ⟨rest, x, y, hspared, hx, hy⟩ := hin.exists_closeAbove
  have hclosed : Parallel mode s t { m' with input := ⟨x⟩ } { n' with input := ⟨y⟩ } := by
    obtain ⟨j, rfl, -⟩ := hin.exists_eq
    exact ⟨rfl, h.standing.of_spared hspared, h.fileCount⟩
  unfold Machine.leaveRegion
  rw [hx, hy]
  exact hclosed.map (f := fun m => { m with expansionDepth := m.expansionDepth - 1 }) fun _ _ => rfl

/-! ### Acts on the input -/

theorem hasRead (h : m.Parallel mode s t n) :
    n.reading.result = m.reading.result ∧ n.reading.comments = m.reading.comments ∧
      Parallel mode s t m.hasRead n.hasRead := by
  obtain ⟨j, rfl, s', t', hspared, hgrafted⟩ := h.exists_eq
  obtain ⟨hresult, hcomments, hsources⟩ := hgrafted.read m.codeOf m.config.retainComments true
  exact ⟨hresult.symm, hcomments.symm, h.withInput ⟨s', t', hspared, hsources⟩⟩

theorem pushTokens (h : m.Parallel mode s t n) (ts : List Token) :
    Parallel mode s t { m with input := m.input.pushAll ts } { n with input := n.input.pushAll ts } := by
  obtain ⟨s', t', hspared, hgrafted⟩ := h.standing
  exact h.withInput ⟨s', t', hspared, hgrafted.pushAll ts⟩

theorem openSource (h : m.Parallel mode s t n) (origin : Origin) (content : String) :
    Parallel mode s t (Run.openSource origin content m).2 (Run.openSource origin content n).2 := by
  have hcount := h.fileCount
  obtain ⟨j, rfl, s', t', hspared, hgrafted⟩ := h.exists_eq
  exact ⟨rfl, ⟨s', t', hspared, .cons (InputSource.not_isRegion_file _ _) hgrafted⟩, hcount⟩

/-- As many files are open in the one machine as in the other, so that the same is recorded. -/
theorem leaveFile (h : m.Parallel mode s t n) : Parallel mode s t m.leaveFile n.leaveFile := by
  have hfiles := h.looksLike.fileCount
  have hcount := h.fileCount
  obtain ⟨j, rfl, hstanding⟩ := h.exists_eq
  refine ⟨?_, hstanding.endTopFile, hcount⟩
  unfold Machine.leaveFile
  rw [hfiles]

end Parallel

end Machine

/-- The coupling of machines that are the same but for what lies below a region. The index tells how the
region is read and what lay below it, in the one machine and in the other. -/
def sheltering : Coupling (ListMode × List InputSource × List InputSource) where
  Joins ground := Machine.Parallel ground.1 ground.2.1 ground.2.2
  First halt := halt = .outOfSteps
  Second halt := halt = .outOfSteps
  Parted _ _ := False
  Stays _ _ := True

namespace sheltering

open Coupling

instance : sheltering.Lawful where
  refl _ := trivial
  trans _ _ _ _ _ := trivial
  looksLike h := h.looksLike
  parted h _ := h
  incidental hf _ _ _ h := h.map hf.input
  incidental_stays _ _ := trivial
  deepen {f} _ _ _ _ h := h.map (f := fun m => { m with expansionDepth := f m.expansionDepth }) fun _ _ => rfl
  deepen_stays _ _ := trivial
  first_within h := nomatch h
  second_within h := nomatch h
  paced _ := ⟨fun _ _ _ => rfl, fun _ _ _ => rfl⟩
  exists_paced m := ⟨m, fun _ _ _ => rfl, fun _ _ _ => rfl⟩
  enter l _ m n h := ⟨(l.mode, m.input.sources, n.input.sources), h.inRegion l,
    fun _ h' => h.leaveRegion h', id⟩
  region_stays _ _ _ _ := trivial

/-- Something is done to both machines that has nothing to do with the input. -/
theorem couples_modify {f : Machine → Machine} (hf : Machine.IgnoresInput f) :
    sheltering.Couples (α := PUnit) (modify f) (modify f) := .update (·.map hf) fun _ => trivial

instance : sheltering.Expanding where
  raw := .raw_of_reading (fun hp => .inr hp.hasRead) fun _ => trivial
  pushTokens ts := .update (·.pushTokens ts) fun _ => trivial
  openSource origin content := .update (·.openSource origin content) fun _ => trivial
  endInput := .update (·.leaveFile) fun _ => trivial
  openBranch _ := couples_modify fun _ _ => rfl
  leave t d h := .leave t d (fun hp => by rw [hp.others]) (couples_modify fun _ _ => rfl) h
  count := .count_of_level (fun hp => by rw [hp.others]) (couples_modify fun _ _ => rfl)
  nested t? ha := ha.nested_of_level (fun hp => by rw [hp.others]) t?

end sheltering

end Gullet
