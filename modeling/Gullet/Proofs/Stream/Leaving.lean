import Gullet.Proofs.Input.Grafting
import Gullet.Proofs.Unfolding.Keeping

/-!
# Files that are left

The machine records which files are left before their end. Expansion inside a region does nothing else to
the sources below it: the topmost file among them has been left exactly if it is in the record, and the
files further down are not in the record at all.
-/

namespace Gullet

namespace Machine

/-- The record of the second machine accounts for what has become of the sources below a region of the
first one: the topmost file among them has been left if it was recorded, and no file further down was. -/
def Records (m m' : Machine) : Prop :=
  ∃ left, m'.leftFiles = left ++ m.leftFiles ∧
    ∀ ⦃mode s⦄, Input.Grafted mode s s m.input.sources m.input.sources →
      (∀ k ∈ left, Input.fileCount ⟨s⟩ ≤ k) ∧
        Input.Grafted mode (Input.leaving left s) (Input.leaving left s) m'.input.sources
          m'.input.sources

namespace Records

variable {m m' m'' : Machine} {l : TokenList}

/-- An act that records nothing. -/
theorem of_eq (h : m'.leftFiles = m.leftFiles)
    (hs : ∀ {mode s}, Input.Grafted mode s s m.input.sources m.input.sources →
      Input.Grafted mode s s m'.input.sources m'.input.sources) : m.Records m' := by
  refine ⟨[], h, fun mode s hgrafted => ⟨List.forall_mem_nil _, ?_⟩⟩
  rw [Input.leaving_nil]
  exact hs hgrafted

theorem trans (h : m.Records m') (h' : m'.Records m'') : m.Records m'' := by
  obtain ⟨left, hleft, hstands⟩ := h
  obtain ⟨later, hlater, hstands'⟩ := h'
  refine ⟨later ++ left, by rw [hlater, hleft, List.append_assoc], fun mode s hgrafted => ?_⟩
  obtain ⟨hbound, hgrafted'⟩ := hstands hgrafted
  obtain ⟨hbound', hgrafted''⟩ := hstands' hgrafted'
  rw [Input.fileCount_leaving] at hbound'
  rw [Input.leaving_append]
  exact ⟨List.forall_mem_append.2 ⟨hbound', hbound⟩, hgrafted''⟩

theorem leaveFile (m : Machine) : m.Records m.leaveFile := by
  refine ⟨[m.input.fileCount], rfl, fun mode s hgrafted => ?_⟩
  have hleft : ∀ k ∈ [m.input.fileCount], m.input.fileCount ≤ k :=
    List.forall_mem_singleton.2 (Nat.le_refl _)
  have htop : m.leaveFile.input.sources = Input.leaving [m.input.fileCount] m.input.sources :=
    (Input.leaving_top _).symm
  rw [htop]
  exact ⟨fun k hk => Nat.le_trans hgrafted.fileCount_le (hleft k hk), hgrafted.leaving rfl hleft⟩

/-- When a region is left, the sources below it are what the record says. -/
theorem sources_leaveRegion (h : (m.inRegion l).Records m') :
    ∃ left, (m.leaveRegion m').leftFiles = left ++ m.leftFiles ∧
      (∀ k ∈ left, m.input.fileCount ≤ k) ∧
      (m.leaveRegion m').input.sources = Input.leaving left m.input.sources := by
  obtain ⟨left, hleft, hstands⟩ := h
  obtain ⟨hbound, hgrafted⟩ := hstands (.region _)
  obtain ⟨above, hsplit, -⟩ := hgrafted.splitAt_below
  rw [Input.length_leaving] at hsplit
  refine ⟨left, hleft, hbound, ?_⟩
  unfold Machine.leaveRegion Run.closeAbove
  rw [hsplit]

theorem leaveRegion (h : (m.inRegion l).Records m') : m.Records (m.leaveRegion m') := by
  obtain ⟨left, hleft, hbound, hsources⟩ := h.sources_leaveRegion
  refine ⟨left, hleft, fun mode s hgrafted => ?_⟩
  rw [hsources]
  exact ⟨fun k hk => Nat.le_trans hgrafted.fileCount_le (hbound k hk), hgrafted.leaving rfl hbound⟩

end Records

instance : Unfolding Records where
  refl _ := .of_eq rfl id
  trans _ _ _ := .trans
  read _ := .of_eq rfl fun h => (h.read _ _ _).2.2
  skip _ _ := .of_eq rfl id
  push _ ts := .of_eq rfl (·.pushAll ts)
  announce _ _ := .of_eq rfl id
  put _ _ _ := .of_eq rfl id
  name _ _ _ := .of_eq rfl id
  openBranch _ _ := .of_eq rfl id
  closeBranch _ := .of_eq rfl id
  count _ := .of_eq rfl id
  openSource _ _ _ := .of_eq rfl (.cons (InputSource.not_isRegion_file _ _))
  endInput := .leaveFile
  region _ := .leaveRegion
  deeper h := h
  shielding h := h

end Machine

end Gullet
