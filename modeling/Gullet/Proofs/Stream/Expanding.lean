import Gullet.Proofs.Stream.Supplying

/-!
# Expanding one command

What the expanded stream does with a token, computed from what expanding the token does; and what
expanding a primitive does, computed from what the primitive does itself.
-/

namespace Gullet

/-- The machine after some more expansions have been counted. -/
def Machine.counting (m : Machine) (n : Nat) : Machine := { m with expansions := m.expansions + n }

/-- The machine one level of expansions deeper. -/
def Machine.deepened (m : Machine) : Machine := { m with expansionDepth := m.expansionDepth + 1 }

/-- Commands are expanded, whatever is read next: no list is read as it is. -/
def Machine.Expanding (m : Machine) : Prop :=
  ∀ mode, (Input.frame m.input.sources).head? = some (some mode) → mode = .stack

namespace Machine

theorem aside_counting (n : Nat) : Aside (·.counting n) :=
  ⟨fun _ => rfl, fun _ => rfl, fun _ => rfl, fun _ => rfl, fun _ _ => rfl, fun _ _ => rfl⟩

theorem aside_deepened : Aside deepened :=
  ⟨fun _ => rfl, fun _ => rfl, fun _ => rfl, fun _ => rfl, fun _ _ => rfl, fun _ _ => rfl⟩

end Machine

namespace Input

theorem expansionEnabled_of_frame_eq_nil {i : Input} (h : frame i.sources = []) :
    i.expansionEnabled = true := by
  obtain ⟨sources⟩ := i
  induction sources with
  | nil => rfl
  | cons s below ih =>
    obtain ⟨pending, kind⟩ := s
    cases kind with
    | file lexer => rfl
    | region mode =>
      rw [frame_cons_of_some rfl] at h
      cases h
    | bottom => exact ih ((frame_cons_of_none rfl).symm.trans h)
    | capture => exact ih ((frame_cons_of_none rfl).symm.trans h)

/-- The frame starts with a region. -/
theorem head?_frame (sources : List InputSource) : (frame sources).head? ≠ some none := by
  intro h
  have hhead := List.head?_dropWhile_not Option.isNone (sources.map (·.mode?))
  unfold frame at h
  rw [h] at hhead
  simp at hhead

end Input

namespace Run

variable {x : Expander} {t : Token} {ref : CommandRef} {m m' m₁ m₂ : Machine}

theorem expansionEnabled_of_expanding (h : m.Expanding) : m.input.expansionEnabled = true := by
  cases hframe : Input.frame m.input.sources with
  | nil => exact Input.expansionEnabled_of_frame_eq_nil hframe
  | cons mode modes =>
    cases mode with
    | none => exact absurd (by rw [hframe]; rfl) (Input.head?_frame m.input.sources)
    | some mode =>
      obtain rfl := h mode (by rw [hframe]; rfl)
      exact Input.expansionEnabled_of_frame hframe

theorem expanding_of_raw {r : Option Token} (h : Stream.raw m = (.ok r, m')) (hm : m.Expanding) :
    m'.Expanding := by
  obtain ⟨-, -, rfl⟩ := raw_eq_ok_iff.1 h
  intro mode hmode
  rw [Machine.sources_afterRead, Input.frame_read] at hmode
  exact hm mode hmode

/-! ### One round of the expanded stream -/

/-- A character is given as it is. -/
theorem expanded_of_char (h : Stream.raw m = (.ok (some t), m')) {category : CharCategory} {c : Char}
    (hv : t.value = .char category c) : Stream.expanded x m = (.ok (some t), m') := by
  refine loop_of_answer ?_
  unfold Stream.expandedRound
  rw [bind_of_ok h]
  dsimp only
  rw [hv]
  rfl

/-- After an expansion the expanded stream goes on from where it has led. -/
theorem expanded_of_expand (h : Stream.raw m = (.ok (some t), m₁)) (hv : t.value = .command ref)
    (hm : m.Expanding) (hexpands : Stream.expands m₁ (m₁.lookup ref) = true)
    (hx : x t m₁ = (.ok none, m₂)) (hleft : m₂.expansionsLeft < m.expansionsLeft) :
    Stream.expanded x m = Stream.expanded x m₂ := by
  refine loop_of_progress ?_ (.inl hleft)
  unfold Stream.expandedRound
  rw [bind_of_ok h]
  dsimp only
  rw [hv]
  dsimp only
  have henabled := expansionEnabled_of_expanding (expanding_of_raw h hm)
  rw [get_bind_eval, henabled, hexpands, Bool.and_true, if_pos rfl, bind_of_ok hx]
  rfl

/-- An expansion that is stopped stops the expanded stream. -/
theorem expanded_of_expand_error {halt : Halt} (h : Stream.raw m = (.ok (some t), m₁))
    (hv : t.value = .command ref) (hm : m.Expanding)
    (hexpands : Stream.expands m₁ (m₁.lookup ref) = true) (hx : x t m₁ = (.error halt, m₂)) :
    Stream.expanded x m = (.error halt, m₂) := by
  refine loop_of_error ?_
  unfold Stream.expandedRound
  rw [bind_of_ok h]
  dsimp only
  rw [hv]
  dsimp only
  have henabled := expansionEnabled_of_expanding (expanding_of_raw h hm)
  rw [get_bind_eval, henabled, hexpands, Bool.and_true, if_pos rfl, bind_of_error hx]

/-! ### One expansion -/

theorem count_eval (t : Token) (h : m.expansions < m.config.maxExpansions) :
    Expansion.count t m = (.ok ⟨⟩, m.counting 1) := by
  unfold Expansion.count
  rw [modify_bind_eval, get_bind_eval]
  have hle : ¬ m.config.maxExpansions < m.expansions + 1 := Nat.not_lt.2 h
  rw [if_neg hle]
  rfl

theorem deeper_eval {α : Type} {a : Run α} {r : α} (t : Token)
    (hd : m.expansionDepth < m.config.maxExpansionDepth) (h : a m.deepened = (.ok r, m'.deepened)) :
    Expansion.deeper t a m = (.ok r, m') := by
  have ha : a { m with expansionDepth := m.expansionDepth + 1 } = (.ok r, m'.deepened) := h
  unfold Expansion.deeper
  dsimp only
  rw [if_neg (Nat.not_le_of_lt hd), ha]
  rfl

theorem deeper_error {α : Type} {a : Run α} {halt : Halt} (t : Token)
    (hd : m.expansionDepth < m.config.maxExpansionDepth) (h : a m.deepened = (.error halt, m')) :
    Expansion.deeper t a m = (.error halt, { m' with expansionDepth := m'.expansionDepth - 1 }) := by
  have ha : a { m with expansionDepth := m.expansionDepth + 1 } = (.error halt, m') := h
  unfold Expansion.deeper
  dsimp only
  rw [if_neg (Nat.not_le_of_lt hd), ha]

theorem count_eq_ok_iff : Expansion.count t m = (.ok ⟨⟩, m') ↔
    m.expansions < m.config.maxExpansions ∧ m' = m.counting 1 := by
  refine ⟨fun h => ?_, fun ⟨hroom, hm'⟩ => hm' ▸ count_eval t hroom⟩
  unfold Expansion.count at h
  rw [modify_bind_eval, get_bind_eval] at h
  split at h
  case isTrue => cases h
  case isFalse hroom =>
    cases h
    exact ⟨Nat.le_of_not_lt hroom, rfl⟩

theorem deeper_eq_ok_iff {α : Type} {a : Run α} {r : α} : Expansion.deeper t a m = (.ok r, m') ↔
    m.expansionDepth < m.config.maxExpansionDepth ∧
      ∃ m₁, a m.deepened = (.ok r, m₁) ∧ m' = { m₁ with expansionDepth := m₁.expansionDepth - 1 } := by
  unfold Expansion.deeper
  dsimp only
  split
  case isTrue hd => exact ⟨nofun, fun h => absurd h.1 (Nat.not_lt.2 hd)⟩
  case isFalse hd =>
    have ha : a { m with expansionDepth := m.expansionDepth + 1 } = a m.deepened := rfl
    rw [ha]
    constructor
    · intro h
      obtain ⟨hresult, hm'⟩ := Prod.mk.inj h
      exact ⟨Nat.lt_of_not_le hd, (a m.deepened).2, Prod.ext hresult rfl, hm'.symm⟩
    · rintro ⟨-, m₁, h, rfl⟩
      rw [h]

/-- Expanding a primitive counts an expansion and goes one level deeper for a while. -/
theorem expand_primitive {p : ExpansionPrimitive} {r : Option Token} (hv : t.value = .command ref)
    (hp : m.lookup ref = .expansion p) (hroom : m.expansions < m.config.maxExpansions)
    (hd : m.expansionDepth < m.config.maxExpansionDepth)
    (h : Expansion.primitive (Expansion.expandWithin m.config.maxExpansionDepth) t p
      (m.counting 1).deepened = (.ok r, m'.deepened)) : expand t m = (.ok r, m') := by
  show Expansion.expandWithin (m.config.maxExpansionDepth + 1) t m = _
  unfold Expansion.expandWithin
  rw [hv]
  dsimp only
  rw [bind_of_ok (count_eval t hroom), bind_of_ok (lookup_eval ref (m.counting 1))]
  have hlookup : (m.counting 1).lookup ref = .expansion p := hp
  rw [hlookup]
  exact deeper_eval t hd (during_of_ok _ t h)

/-- Where a primitive has been expanded, there was room for it. -/
theorem of_expandWithin_primitive {levels : Nat} {p : ExpansionPrimitive} {r : Option Token}
    (hv : t.value = .command ref) (hp : m.lookup ref = .expansion p)
    (h : Expansion.expandWithin (levels + 1) t m = (.ok r, m')) :
    m.expansions < m.config.maxExpansions ∧
      ∃ m₁, Expansion.primitive (Expansion.expandWithin levels) t p (m.counting 1).deepened =
          (.ok r, m₁) ∧
        m' = { m₁ with expansionDepth := m₁.expansionDepth - 1 } := by
  unfold Expansion.expandWithin at h
  rw [hv] at h
  obtain ⟨_, m₁, hcount, h⟩ := exists_of_bind_eq_ok h
  obtain ⟨hroom, rfl⟩ := count_eq_ok_iff.1 hcount
  rw [bind_of_ok (lookup_eval ref (m.counting 1))] at h
  have hlookup : (m.counting 1).lookup ref = .expansion p := hp
  rw [hlookup] at h
  obtain ⟨-, m₂, hduring, hm'⟩ := deeper_eq_ok_iff.1 h
  exact ⟨hroom, m₂, of_during_eq_ok hduring, hm'⟩

/-- A primitive that fails makes the expansion fail. -/
theorem expandWithin_primitive_error {levels : Nat} {p : ExpansionPrimitive} {d : Diagnostic}
    (hv : t.value = .command ref) (hp : m.lookup ref = .expansion p)
    (hroom : m.expansions < m.config.maxExpansions)
    (hd : m.expansionDepth < m.config.maxExpansionDepth)
    (h : Expansion.primitive (Expansion.expandWithin levels) t p (m.counting 1).deepened =
      (.error (.failed d), m')) :
    ∃ d' m₁, Expansion.expandWithin (levels + 1) t m = (.error (.failed d'), m₁) := by
  have hduring : during .expansion t (Expansion.primitive (Expansion.expandWithin levels) t p)
      (m.counting 1).deepened = (.error (.failed (d.within m'.atlas .expansion t)), m') := by
    unfold during
    rw [tryCatch_eval, h]
    rfl
  refine ⟨d.within m'.atlas .expansion t, { m' with expansionDepth := m'.expansionDepth - 1 }, ?_⟩
  unfold Expansion.expandWithin
  rw [hv]
  dsimp only
  rw [bind_of_ok (count_eval t hroom), bind_of_ok (lookup_eval ref (m.counting 1))]
  have hlookup : (m.counting 1).lookup ref = .expansion p := hp
  rw [hlookup]
  dsimp only
  exact deeper_error t hd hduring

end Run

end Gullet
