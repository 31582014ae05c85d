import Gullet.Dimen.Unit

/-!
# The range of dimensions

A legal dimension lies strictly between `-2^14` and `2^14` points. The checks that are made when a
dimension is put together are made on its parts. They leave open one gap: decimals can round up to a whole
point, which is then added to the greatest whole number of points that is allowed. What is computed on
the way is always a word.
-/

namespace Gullet

namespace Dimen

variable {d : Dimen} {n : Int}

theorem isLegal_iff : d.isLegal = true ↔ -1073741823 ≤ d.scaled ∧ d.scaled ≤ 1073741823 := by
  unfold isLegal greatest
  rw [Bool.and_eq_true, decide_eq_true_iff, decide_eq_true_iff]

theorem isLegal_neg (d : Dimen) : (-d).isLegal = d.isLegal := by
  rw [Bool.eq_iff_iff, isLegal_iff, isLegal_iff, scaled_neg]
  omega

theorem isLegal_of_ofScaled? (h : ofScaled? n = some d) : d.isLegal = true := by
  obtain ⟨hlow, hhigh, rfl⟩ := ofScaled?_eq_some_iff.1 h
  exact isLegal_iff.2 ⟨hlow, hhigh⟩

theorem isLegal_of_mulAdd? {x y : Dimen} (h : x.mulAdd? n y = some d) : d.isLegal = true :=
  isLegal_of_ofScaled? h

theorem ofPoints?_eq_some_iff :
    ofPoints? n = some d ↔ -16384 < n ∧ n < 16384 ∧ d = ⟨unity * n⟩ := by
  unfold ofPoints?
  by_cases h : (decide (-16384 < n) && decide (n < 16384)) = true
  · rw [if_pos h]
    rw [Bool.and_eq_true, decide_eq_true_iff, decide_eq_true_iff] at h
    simp only [Option.some.injEq, h.1, h.2, true_and]
    exact eq_comm
  · rw [if_neg h]
    rw [Bool.and_eq_true, decide_eq_true_iff, decide_eq_true_iff] at h
    simp only [reduceCtorEq, false_iff]
    exact fun hd => h ⟨hd.1, hd.2.1⟩

theorem scaleBy?_eq_some_iff {x q r : Dimen} {k : Int} :
    x.scaleBy? n k = some (q, r) ↔
      k ≠ 0 ∧ q = ⟨(x.scaled * n).tdiv k⟩ ∧ q.isLegal = true ∧ r = ⟨(x.scaled * n).tmod k⟩ := by
  unfold scaleBy?
  by_cases hk : k = 0
  · simp [hk]
  · simp only [if_neg hk, ofScaled?, Option.map_eq_some_iff, Prod.mk.injEq]
    constructor
    · rintro ⟨q', hq, rfl, rfl⟩
      split at hq
      · rename_i hlegal
        cases hq
        exact ⟨hk, rfl, hlegal, rfl⟩
      · cases hq
    · rintro ⟨-, rfl, hlegal, rfl⟩
      exact ⟨_, if_pos hlegal, rfl, rfl⟩

/-- What is left beside whole points is less than a point. -/
theorem natAbs_fraction_lt (x : Dimen) : x.fraction.scaled.natAbs < 65536 := by
  unfold fraction unity
  rw [Int.natAbs_tmod]
  exact Nat.mod_lt _ (by decide)

/-- However many decimals are read, they make less than a point, in halves of a scaled point. -/
theorem foldr_decimals_le {digits : List Nat} (h : ∀ k ∈ digits, k < 10) :
    digits.foldr (fun d a => (a + d * 131072) / 10) 0 ≤ 131071 := by
  induction digits with
  | nil => decide
  | cons k rest ih =>
    have hk := h k List.mem_cons_self
    have hrest := ih fun k hk => h k (List.mem_cons_of_mem _ hk)
    rw [List.foldr_cons]
    omega

/-- The decimals of a number make at most a whole point. -/
theorem ofDecimalFraction_mem {digits : List Nat} (h : ∀ k ∈ digits, k < 10) :
    0 ≤ (ofDecimalFraction digits).scaled ∧ (ofDecimalFraction digits).scaled ≤ unity := by
  have hfold := foldr_decimals_le h
  unfold ofDecimalFraction unity
  dsimp only
  omega

end Dimen

namespace LengthUnit

variable {u : LengthUnit} {whole : Int} {part d : Dimen}

/-- The length of `whole + part` units of `n / d` points, where the whole part is converted first. -/
def convert? (n d whole : Int) (part : Dimen) : Option Dimen := do
  let (i, remainder) ← Dimen.scaleBy? ⟨whole⟩ n d
  let carried ← Dimen.ofPoints? remainder.scaled
  let f ← part.mulAdd? n carried
  let f := f.dividedBy d
  let points ← Dimen.ofPoints? (i.scaled + f.wholePoints)
  return points + f.fraction

theorem times?_eq_convert? (hpoint : u ≠ .point) (hscaled : u ≠ .scaledPoint) :
    u.times? whole part = convert? u.fraction.1 u.fraction.2 whole part := by
  cases u with
  | point => exact absurd rfl hpoint
  | scaledPoint => exact absurd rfl hscaled
  | _ => rfl

/-- The whole points of the two parts of a conversion are words, and so is their sum. -/
theorem fits_points_of_convert {n k carried : Int} {i remainder f : Dimen}
    (hi : Dimen.scaleBy? ⟨whole⟩ n k = some (i, remainder)) (hf : part.mulAdd? n ⟨carried⟩ = some f) :
    Word.fits (i.scaled + (f.dividedBy k).wholePoints) = true := by
  obtain ⟨-, -, hlegal, -⟩ := Dimen.scaleBy?_eq_some_iff.1 hi
  have hi := Dimen.isLegal_iff.1 hlegal
  have hf := Dimen.isLegal_iff.1 (Dimen.isLegal_of_mulAdd? hf)
  have hdivided : (f.scaled.tdiv k).natAbs ≤ f.scaled.natAbs := by
    rw [Int.natAbs_tdiv]
    exact Nat.div_le_self _ _
  have hpoints : (f.dividedBy k).wholePoints.natAbs ≤ (f.scaled.tdiv k).natAbs := by
    unfold Dimen.wholePoints Dimen.dividedBy
    rw [Int.natAbs_tdiv]
    exact Nat.div_le_self _ _
  rw [Word.fits_iff]
  omega

/-- A conversion never leaves the range: what is added to whole points is less than a point. -/
theorem isLegal_of_convert? {n k : Int} (h : convert? n k whole part = some d) :
    d.isLegal = true := by
  unfold convert? at h
  obtain ⟨⟨i, remainder⟩, -, h⟩ := Option.bind_eq_some_iff.1 h
  obtain ⟨carried, -, h⟩ := Option.bind_eq_some_iff.1 h
  obtain ⟨f, -, h⟩ := Option.bind_eq_some_iff.1 h
  obtain ⟨points, hpoints, h⟩ := Option.bind_eq_some_iff.1 h
  obtain ⟨hlow, hhigh, rfl⟩ := Dimen.ofPoints?_eq_some_iff.1 hpoints
  generalize f.dividedBy k = f at h hlow hhigh
  cases h
  have hfraction := Dimen.natAbs_fraction_lt f
  rw [Dimen.isLegal_iff, Dimen.scaled_add]
  unfold Dimen.unity
  dsimp only
  omega

/-- **The lengths that a unit gives.** They are legal, but for two: decimals can round up to a point that
goes with the greatest whole number of points, and the least word is taken for scaled points as it is. -/
theorem times?_cases (hwhole : 0 ≤ whole ∨ whole = Word.least)
    (hpart : 0 ≤ part.scaled ∧ part.scaled ≤ Dimen.unity) (h : u.times? whole part = some d) :
    d.isLegal = true ∨
      (u = .point ∧ whole = 16383 ∧ part.scaled = Dimen.unity ∧ d.scaled = 1073741824) ∨
      u = .scaledPoint ∧ whole = Word.least ∧ d.scaled = Word.least := by
  by_cases hpoint : u = .point
  · subst hpoint
    obtain ⟨points, hpoints, rfl⟩ := Option.map_eq_some_iff.1 h
    obtain ⟨hlow, hhigh, rfl⟩ := Dimen.ofPoints?_eq_some_iff.1 hpoints
    rw [Dimen.isLegal_iff, Dimen.scaled_add]
    unfold Dimen.unity Word.least at *
    simp only [true_and, reduceCtorEq, false_and, or_false]
    omega
  · by_cases hscaled : u = .scaledPoint
    · subst hscaled
      simp only [times?, Option.ite_none_left_eq_some, Option.some.injEq] at h
      obtain ⟨hgreat, rfl⟩ := h
      rw [Dimen.isLegal_iff]
      unfold Dimen.greatest at hgreat
      dsimp only
      simp only [true_and, reduceCtorEq, false_and, false_or]
      omega
    · rw [times?_eq_convert? hpoint hscaled] at h
      exact .inl (isLegal_of_convert? h)

end LengthUnit

end Gullet
