import Gullet.Expansion

/-!
# Grafting

A region, with what has been opened above it, can be grafted on other sources. Nothing that is done to
the sources tells the difference, as long as equally many files are open below. To the sources below,
only one thing can happen: the rest of the topmost file is discarded.
-/

namespace Gullet

/-- The source is a region. -/
def InputSource.IsRegion (c : InputSource) : Prop := ∃ mode, c.kind = .region mode

theorem InputSource.not_isRegion_file (pending : Pending) (lexer : Lexer) :
    ¬IsRegion { pending, kind := .file lexer } := by
  rintro ⟨mode, hk⟩
  cases hk

theorem InputSource.not_isRegion_capture (pending : Pending) :
    ¬IsRegion { pending, kind := .capture } := by
  rintro ⟨mode, hk⟩
  cases hk

namespace Input

/-- The same files and captures above the same region, which is read in the given mode, stand on `s` and
on `t`. -/
inductive Grafted (mode : ListMode) (s t : List InputSource) :
    List InputSource → List InputSource → Prop where
  | region (pending : Pending) :
      Grafted mode s t ({ pending, kind := .region mode } :: s) ({ pending, kind := .region mode } :: t)
  | cons {c : InputSource} {x y : List InputSource} (hc : ¬c.IsRegion) (h : Grafted mode s t x y) :
      Grafted mode s t (c :: x) (c :: y)

/-- The sources `s` and `t` have been spared, except that in both the topmost file may have been left. -/
inductive Spared (s t : List InputSource) : List InputSource → List InputSource → Prop where
  | same : Spared s t s t
  | ended : Spared s t (endTopFile s) (endTopFile t)

/-! ### Leaving the topmost file -/

theorem endTopFile_of_file (lexer : Lexer) (pending : Pending) (below : List InputSource) :
    endTopFile ({ pending, kind := .file lexer } :: below) =
      { pending, kind := .file lexer.discardRest } :: below := by
  rw [endTopFile]

theorem endTopFile_of_isFile {c : InputSource} (hc : c.isFile = false) (below : List InputSource) :
    endTopFile (c :: below) = c :: endTopFile below := by
  obtain ⟨pending, kind⟩ := c
  cases kind with
  | file lexer => cases hc
  | _ => rw [endTopFile]

@[simp] theorem length_endTopFile (s : List InputSource) : (endTopFile s).length = s.length := by
  induction s with
  | nil => rfl
  | cons c below ih =>
    obtain ⟨pending, kind⟩ := c
    cases kind with
    | file lexer => rw [endTopFile_of_file]; rfl
    | _ => rw [endTopFile_of_isFile rfl]; exact congrArg (· + 1) ih

theorem fileCount_of_file (lexer : Lexer) (pending : Pending) (below : List InputSource) :
    fileCount ⟨{ pending, kind := .file lexer } :: below⟩ = fileCount ⟨below⟩ + 1 :=
  List.countP_cons_of_pos rfl

theorem fileCount_of_isFile {c : InputSource} (hc : c.isFile = false) (below : List InputSource) :
    fileCount ⟨c :: below⟩ = fileCount ⟨below⟩ :=
  List.countP_cons_of_neg (by simp [hc])

/-- A file that has been left is left already. -/
theorem endTopFile_endTopFile (s : List InputSource) : endTopFile (endTopFile s) = endTopFile s := by
  induction s with
  | nil => rfl
  | cons c below ih =>
    obtain ⟨pending, kind⟩ := c
    cases kind with
    | file lexer => rw [endTopFile_of_file, endTopFile_of_file]; rfl
    | _ => rw [endTopFile_of_isFile rfl, endTopFile_of_isFile rfl, ih]

/-- A file that has been left stays open. -/
theorem fileCount_endTopFile (s : List InputSource) : fileCount ⟨endTopFile s⟩ = fileCount ⟨s⟩ := by
  unfold fileCount
  dsimp only
  induction s with
  | nil => rfl
  | cons c below ih =>
    obtain ⟨pending, kind⟩ := c
    cases kind with
    | file lexer => rw [endTopFile_of_file, List.countP_cons, List.countP_cons]; rfl
    | _ => rw [endTopFile_of_isFile rfl, List.countP_cons, List.countP_cons, ih]

/-- The sources, of which the topmost file has been left if its number is among the given ones. -/
def leaving (left : List Nat) (s : List InputSource) : List InputSource :=
  if fileCount ⟨s⟩ ∈ left then endTopFile s else s

@[simp] theorem leaving_nil (s : List InputSource) : leaving [] s = s := if_neg (by simp)

theorem leaving_top (s : List InputSource) : leaving [fileCount ⟨s⟩] s = endTopFile s :=
  if_pos (by simp)

theorem leaving_of_notMem {left : List Nat} {s : List InputSource} (h : fileCount ⟨s⟩ ∉ left) :
    leaving left s = s := if_neg h

theorem leaving_of_file (left : List Nat) (lexer : Lexer) (pending : Pending)
    (below : List InputSource) :
    leaving left ({ pending, kind := .file lexer } :: below) =
      { pending,
        kind := .file (if fileCount ⟨below⟩ + 1 ∈ left then lexer.discardRest else lexer) } :: below := by
  unfold leaving
  rw [fileCount_of_file, endTopFile_of_file]
  split <;> rfl

theorem leaving_of_isFile {c : InputSource} (hc : c.isFile = false) (left : List Nat)
    (below : List InputSource) : leaving left (c :: below) = c :: leaving left below := by
  unfold leaving
  rw [fileCount_of_isFile hc, endTopFile_of_isFile hc]
  split <;> rfl

@[simp] theorem length_leaving (left : List Nat) (s : List InputSource) :
    (leaving left s).length = s.length := by
  unfold leaving
  split <;> simp

@[simp] theorem fileCount_leaving (left : List Nat) (s : List InputSource) :
    fileCount ⟨leaving left s⟩ = fileCount ⟨s⟩ := by
  unfold leaving
  split <;> simp [fileCount_endTopFile]

theorem leaving_append (later left : List Nat) (s : List InputSource) :
    leaving (later ++ left) s = leaving later (leaving left s) := by
  have hcount := fileCount_leaving left s
  unfold leaving at hcount ⊢
  rw [hcount]
  by_cases hlater : fileCount ⟨s⟩ ∈ later
  · by_cases hleft : fileCount ⟨s⟩ ∈ left
    · simp [hlater, hleft, endTopFile_endTopFile]
    · simp [hlater, hleft]
  · simp [hlater]

namespace Spared

variable {s t s' t' : List InputSource}

theorem length (h : Spared s t s' t') : s'.length = s.length ∧ t'.length = t.length := by
  cases h with
  | same => exact ⟨rfl, rfl⟩
  | ended => exact ⟨length_endTopFile s, length_endTopFile t⟩

theorem fileCount (h : Spared s t s' t') (hst : Input.fileCount ⟨s⟩ = Input.fileCount ⟨t⟩) :
    Input.fileCount ⟨s'⟩ = Input.fileCount ⟨t'⟩ := by
  cases h with
  | same => exact hst
  | ended => rw [fileCount_endTopFile, fileCount_endTopFile, hst]

theorem endTopFile (h : Spared s t s' t') :
    Spared s t (Input.endTopFile s') (Input.endTopFile t') := by
  cases h with
  | same => exact .ended
  | ended =>
    rw [endTopFile_endTopFile, endTopFile_endTopFile]
    exact .ended

end Spared

/-! ### What is the same on both -/

/-- To split off everything above the sources below. -/
theorem splitAt_append_cons (above : List InputSource) (r : InputSource) (below : List InputSource) :
    (above ++ r :: below).splitAt ((above ++ r :: below).length - below.length) =
      (above ++ [r], below) := by
  have hlength : (above ++ r :: below).length - below.length = (above ++ [r]).length := by simp; omega
  rw [hlength, List.append_cons above r below, List.splitAt_eq, List.take_left, List.drop_left]

namespace Grafted

variable {mode : ListMode} {s t x y : List InputSource}

theorem append {above : List InputSource} (habove : ∀ c ∈ above, ¬c.IsRegion)
    (h : Grafted mode s t x y) : Grafted mode s t (above ++ x) (above ++ y) := by
  induction above with
  | nil => exact h
  | cons c above ih =>
    obtain ⟨hc, habove⟩ := List.forall_mem_cons.1 habove
    exact .cons hc (ih habove)

/-- The sources that stand on `s` and `t`, and the region below them. -/
theorem exists_append (h : Grafted mode s t x y) :
    ∃ above pending, (∀ c ∈ above, ¬c.IsRegion) ∧
      x = above ++ { pending, kind := .region mode } :: s ∧
      y = above ++ { pending, kind := .region mode } :: t := by
  induction h with
  | region pending => exact ⟨[], pending, List.forall_mem_nil _, rfl, rfl⟩
  | @cons c x y hc h ih =>
    obtain ⟨above, pending, habove, rfl, rfl⟩ := ih
    exact ⟨c :: above, pending, List.forall_mem_cons.2 ⟨hc, habove⟩, rfl, rfl⟩

theorem read (code : Char → CatCode) (report onTop : Bool) (h : Grafted mode s t x y) :
    (Input.read code report onTop x).result = (Input.read code report onTop y).result ∧
      (Input.read code report onTop x).comments = (Input.read code report onTop y).comments ∧
      Grafted mode s t (Input.read code report onTop x).sources
        (Input.read code report onTop y).sources := by
  induction h generalizing onTop with
  | region pending =>
    unfold Input.read
    dsimp only
    split
    · exact ⟨rfl, rfl, .region _⟩
    · exact ⟨rfl, rfl, .region _⟩
  | @cons c x y hc h ih =>
    have hx : x.isEmpty = false := by cases h <;> rfl
    have hy : y.isEmpty = false := by cases h <;> rfl
    have hfile := InputSource.not_isRegion_file c.pending
    obtain ⟨hresult, hcomments, hsources⟩ := ih false
    obtain ⟨hresult', hcomments', hsources'⟩ := ih true
    unfold Input.read
    split
    · exact ⟨rfl, rfl, .cons hc h⟩
    · split
      · exact ⟨rfl, rfl, .cons hc h⟩
      · exact ⟨hresult, hcomments, .cons hc hsources⟩
      · exact ⟨hresult, hcomments, .cons hc hsources⟩
      · dsimp only
        split
        · exact ⟨rfl, rfl, .cons (hfile _) h⟩
        · exact ⟨rfl, rfl, .cons (hfile _) h⟩
        · -- a file at its end is dropped if it is on top, since the region is below it in any case
          rw [hx, hy]
          split
          · exact ⟨hresult', congrArg (_ ++ ·) hcomments', hsources'⟩
          · exact ⟨hresult, congrArg (_ ++ ·) hcomments, .cons (hfile _) hsources⟩

theorem pushAll (ts : List Token) (h : Grafted mode s t x y) :
    Grafted mode s t (Input.pushAll ⟨x⟩ ts).sources (Input.pushAll ⟨y⟩ ts).sources := by
  cases h with
  | region pending => exact .region _
  | cons hc h => exact .cons hc h

theorem expansionEnabled (h : Grafted mode s t x y) :
    Input.expansionEnabled ⟨y⟩ = Input.expansionEnabled ⟨x⟩ := by
  induction h with
  | region pending => rfl
  | @cons c x y hc h ih =>
    obtain ⟨pending, kind⟩ := c
    cases kind with
    | file lexer => rfl
    | region mode => exact absurd ⟨mode, rfl⟩ hc
    | bottom => exact ih
    | capture => exact ih

theorem fileCount (h : Grafted mode s t x y) (hst : Input.fileCount ⟨s⟩ = Input.fileCount ⟨t⟩) :
    Input.fileCount ⟨x⟩ = Input.fileCount ⟨y⟩ := by
  obtain ⟨above, pending, -, rfl, rfl⟩ := h.exists_append
  unfold Input.fileCount at hst ⊢
  rw [List.countP_append, List.countP_append, List.countP_cons, List.countP_cons, hst]

/-- The file that is left stands above the region, or below it. -/
theorem endTopFile (h : Grafted mode s t x y) :
    Grafted mode s t (Input.endTopFile x) (Input.endTopFile y) ∨
      Grafted mode (Input.endTopFile s) (Input.endTopFile t) (Input.endTopFile x)
        (Input.endTopFile y) := by
  induction h with
  | region pending =>
    rw [endTopFile_of_isFile rfl, endTopFile_of_isFile rfl]
    exact .inr (.region pending)
  | @cons c x y hc h ih =>
    obtain ⟨pending, kind⟩ := c
    cases kind with
    | file lexer =>
      rw [endTopFile_of_file, endTopFile_of_file]
      exact .inl (.cons (InputSource.not_isRegion_file pending _) h)
    | _ =>
      rw [endTopFile_of_isFile rfl, endTopFile_of_isFile rfl]
      exact ih.imp (.cons hc) (.cons hc)

theorem fileCount_le (h : Grafted mode s t x y) : Input.fileCount ⟨s⟩ ≤ Input.fileCount ⟨x⟩ := by
  induction h with
  | region pending => exact (List.sublist_cons_self _ s).countP_le
  | @cons c x y hc h ih => exact Nat.le_trans ih (List.sublist_cons_self c x).countP_le

/-- If none of the files that are left is below another one, then below the region only the topmost one
is left, and only if no file stands above the region. -/
theorem leaving {left : List Nat} (h : Grafted mode s t x y)
    (hst : Input.fileCount ⟨s⟩ = Input.fileCount ⟨t⟩) (hleft : ∀ k ∈ left, Input.fileCount ⟨x⟩ ≤ k) :
    Grafted mode (Input.leaving left s) (Input.leaving left t) (Input.leaving left x)
      (Input.leaving left y) := by
  induction h with
  | region pending =>
    rw [leaving_of_isFile rfl, leaving_of_isFile rfl]
    exact .region pending
  | @cons c x y hc h ih =>
    obtain ⟨pending, kind⟩ := c
    cases kind with
    | file lexer =>
      have hspared : Input.fileCount ⟨s⟩ ∉ left := fun hmem => by
        have hle := hleft _ hmem
        rw [fileCount_of_file] at hle
        exact Nat.not_succ_le_self _ (Nat.le_trans hle h.fileCount_le)
      rw [leaving_of_notMem hspared, leaving_of_notMem (hst ▸ hspared), leaving_of_file,
        leaving_of_file, h.fileCount hst]
      exact .cons (InputSource.not_isRegion_file pending _) h
    | _ =>
      rw [leaving_of_isFile rfl, leaving_of_isFile rfl]
      exact .cons hc (ih hleft)

/-- If everything above the sources below is split off, it is the same on both. -/
theorem splitAt_below (h : Grafted mode s t x y) :
    ∃ above, x.splitAt (x.length - s.length) = (above, s) ∧
      y.splitAt (y.length - t.length) = (above, t) := by
  obtain ⟨above, pending, -, rfl, rfl⟩ := h.exists_append
  exact ⟨_, splitAt_append_cons above _ s, splitAt_append_cons above _ t⟩

/-- If less is split off, the same sources still stand on both. -/
theorem splitAt_above (h : Grafted mode s t x y) (k : Nat) :
    ∃ above x' y', (∀ c ∈ above, ¬c.IsRegion) ∧
      x.splitAt (x.length - (k + 1 + s.length)) = (above, x') ∧
      y.splitAt (y.length - (k + 1 + t.length)) = (above, y') ∧ Grafted mode s t x' y' := by
  obtain ⟨above, pending, habove, rfl, rfl⟩ := h.exists_append
  let r : InputSource := { pending, kind := .region mode }
  have hsplit (u : List InputSource) :
      (above ++ r :: u).splitAt ((above ++ r :: u).length - (k + 1 + u.length)) =
        (above.take (above.length - k), above.drop (above.length - k) ++ r :: u) := by
    have hlength : (above ++ r :: u).length - (k + 1 + u.length) = above.length - k := by simp; omega
    rw [hlength, List.splitAt_eq, List.take_append_of_le_length (Nat.sub_le _ _),
      List.drop_append_of_le_length (Nat.sub_le _ _)]
  refine ⟨_, _, _, fun c hc => habove c (List.mem_of_mem_take hc), hsplit s, hsplit t, ?_⟩
  exact (region pending).append fun c hc => habove c (List.mem_of_mem_drop hc)

theorem takeCapture (h : Grafted mode s t x y) (k : Nat) :
    (Input.takeCapture (k + 1 + s.length) x).1 = (Input.takeCapture (k + 1 + t.length) y).1 ∧
      Grafted mode s t (Input.takeCapture (k + 1 + s.length) x).2
        (Input.takeCapture (k + 1 + t.length) y).2 := by
  obtain ⟨above, x', y', habove, hx, hy, hgrafted⟩ := h.splitAt_above k
  unfold Input.takeCapture
  rw [hx, hy]
  dsimp only
  split
  · exact ⟨rfl, hgrafted.append fun c hc => habove c ((List.dropLast_sublist _).mem hc)⟩
  · exact ⟨rfl, h⟩

end Grafted

/-- The same sources above the same region stand on what has become of `s` and of `t`. -/
def Standing (mode : ListMode) (s t x y : List InputSource) : Prop :=
  ∃ s' t', Spared s t s' t' ∧ Grafted mode s' t' x y

namespace Standing

variable {mode : ListMode} {s t x y : List InputSource}

theorem endTopFile (h : Standing mode s t x y) :
    Standing mode s t (Input.endTopFile x) (Input.endTopFile y) := by
  obtain ⟨s', t', hspared, hgrafted⟩ := h
  rcases hgrafted.endTopFile with hgrafted' | hgrafted'
  · exact ⟨s', t', hspared, hgrafted'⟩
  · exact ⟨_, _, hspared.endTopFile, hgrafted'⟩

/-- Sources that have been spared still stand where they stood. -/
theorem of_spared {x' y' : List InputSource} (h : Standing mode s t x y) (hspared : Spared x y x' y') :
    Standing mode s t x' y' := by
  cases hspared with
  | same => exact h
  | ended => exact h.endTopFile

/-- What has been captured since then, when the sources were as high as `x` and `y`. -/
theorem takeCapture {x' y' : List InputSource} (h : Standing mode s t x y)
    (h' : Standing mode s t x' y') :
    (Input.takeCapture x.length x').1 = (Input.takeCapture y.length y').1 ∧
      Standing mode s t (Input.takeCapture x.length x').2 (Input.takeCapture y.length y').2 := by
  obtain ⟨s₁, t₁, hspared₁, hgrafted₁⟩ := h
  obtain ⟨s₂, t₂, hspared₂, hgrafted₂⟩ := h'
  obtain ⟨above, pending, -, rfl, rfl⟩ := hgrafted₁.exists_append
  have hheight (u v : List InputSource) (huv : u.length = v.length) :
      (above ++ { pending, kind := .region mode } :: u).length = above.length + 1 + v.length := by
    simp [huv]
    omega
  rw [hheight s₁ s₂ (hspared₁.length.1.trans hspared₂.length.1.symm),
    hheight t₁ t₂ (hspared₁.length.2.trans hspared₂.length.2.symm)]
  obtain ⟨hcaptured, hgrafted⟩ := hgrafted₂.takeCapture above.length
  exact ⟨hcaptured, s₂, t₂, hspared₂, hgrafted⟩

end Standing

/-- To take a capture away leaves no other sources than there were. -/
theorem mem_of_mem_takeCapture {height : Nat} {sources : List InputSource} {s : InputSource}
    (h : s ∈ (takeCapture height sources).2) : s ∈ sources := by
  unfold takeCapture at h
  rw [List.splitAt_eq] at h
  dsimp only at h
  split at h
  · rcases List.mem_append.1 h with habove | hbelow
    · exact List.mem_of_mem_take ((List.dropLast_sublist _).mem habove)
    · exact List.mem_of_mem_drop hbelow
  · exact h

end Input

end Gullet
