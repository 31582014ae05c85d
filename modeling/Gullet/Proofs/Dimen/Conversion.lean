import Gullet.Proofs.Dimen.Range
import Gullet.Proofs.Dimen.Units
import Mathlib.Tactic.Ring

/-!
# Conversion of lengths

A length in units of `n / d` points is converted by parts: the whole part is multiplied and divided, what
the division leaves is carried into the part of a point, and that is divided in turn. Taken together this
rounds down once, so a length that is given is the exact one, rounded down. It is absent only if that is
greater than a legal length. All of it can be done in words, and so can the rounding of decimals.
-/

namespace Gullet

/-! ### Lengths without sign -/

namespace Dimen

variable {n k : Int} {x : Dimen}

theorem scaleBy?_of_nonneg (h : 0 ≤ x.scaled * n) (hk : k ≠ 0) :
    x.scaleBy? n k = (ofScaled? (x.scaled * n / k)).map fun q => (q, ⟨x.scaled * n % k⟩) := by
  unfold scaleBy?
  rw [if_neg hk, Int.tdiv_eq_ediv_of_nonneg h, Int.tmod_eq_emod_of_nonneg h]

theorem dividedBy_of_nonneg (h : 0 ≤ x.scaled) : x.dividedBy k = ⟨x.scaled / k⟩ :=
  congrArg mk (Int.tdiv_eq_ediv_of_nonneg h)

theorem wholePoints_of_nonneg (h : 0 ≤ x.scaled) : x.wholePoints = x.scaled / unity :=
  Int.tdiv_eq_ediv_of_nonneg h

theorem fraction_of_nonneg (h : 0 ≤ x.scaled) : x.fraction = ⟨x.scaled % unity⟩ :=
  congrArg mk (Int.tmod_eq_emod_of_nonneg h)

theorem ofScaled?_of_nonneg (h : 0 ≤ n) : ofScaled? n = if n ≤ greatest then some ⟨n⟩ else none := by
  have hgreatest : greatest = 1073741823 := rfl
  by_cases hle : n ≤ greatest
  · rw [if_pos hle]
    exact ofScaled?_eq_some_iff.2 ⟨by omega, hle, rfl⟩
  · rw [if_neg hle, Option.eq_none_iff_forall_ne_some]
    exact fun d hd => hle (ofScaled?_eq_some_iff.1 hd).2.1

/-- A length is legal if its whole points are few enough, whatever is left beside them. -/
theorem map_ofPoints?_add {q f : Int} (hq : 0 ≤ q) (hf : 0 ≤ f) :
    (ofPoints? (q + f / unity)).map (· + ⟨f % unity⟩) = ofScaled? (unity * q + f) := by
  have hunity : unity = 65536 := rfl
  have hgreatest : greatest = 1073741823 := rfl
  rw [hunity, ofScaled?_of_nonneg (by omega)]
  by_cases hle : 65536 * q + f ≤ greatest
  · have hpoints : ofPoints? (q + f / 65536) = some ⟨65536 * (q + f / 65536)⟩ :=
      ofPoints?_eq_some_iff.2 ⟨by omega, by omega, rfl⟩
    rw [if_pos hle, hpoints, Option.map_some]
    refine congrArg some (congrArg mk ?_)
    show 65536 * (q + f / 65536) + f % 65536 = 65536 * q + f
    omega
  · rw [if_neg hle, Option.map_eq_none_iff, Option.eq_none_iff_forall_ne_some]
    intro d hd
    obtain ⟨-, hlt, -⟩ := ofPoints?_eq_some_iff.1 hd
    omega

theorem isLegal_dividedBy (h : x.isLegal = true) : (x.dividedBy n).isLegal = true := by
  have hle : (x.scaled.tdiv n).natAbs ≤ x.scaled.natAbs := by
    rw [Int.natAbs_tdiv]
    exact Nat.div_le_self _ _
  rw [isLegal_iff] at h ⊢
  unfold dividedBy
  dsimp only
  omega

end Dimen

/-! ### Rounding -/

namespace LengthUnit

variable {u : LengthUnit} {n d whole : Int} {part v : Dimen}

/-- The exact length of `whole + part` units, rounded down to scaled points. -/
def exact (u : LengthUnit) (whole : Int) (part : Dimen) : Int :=
  u.fraction.1 * (Dimen.unity * whole + part.scaled) / u.fraction.2

/-- To divide the whole part, and then what it leaves with the part of a point, rounds down once. -/
theorem ediv_by_parts (n whole part : Int) (hd : d ≠ 0) :
    n * (Dimen.unity * whole + part) / d =
      Dimen.unity * (whole * n / d) + (part * n + Dimen.unity * (whole * n % d)) / d := by
  have hsplit : n * (Dimen.unity * whole + part) =
      part * n + Dimen.unity * (whole * n % d) + d * (Dimen.unity * (whole * n / d)) := by
    calc n * (Dimen.unity * whole + part)
        = part * n + Dimen.unity * (whole * n) := by ring
      _ = part * n + Dimen.unity * (d * (whole * n / d) + whole * n % d) := by
          rw [Int.mul_ediv_add_emod]
      _ = part * n + Dimen.unity * (whole * n % d) + d * (Dimen.unity * (whole * n / d)) := by ring
  rw [hsplit, Int.add_mul_ediv_left _ _ hd, Int.add_comm]

/-- Where the fraction is small, what the whole part leaves is never too large for the part of a point. -/
theorem mulAdd?_carried {r : Int} (hn : 0 ≤ n) (hsmall : n + d ≤ 16384)
    (hpart : 0 ≤ part.scaled ∧ part.scaled ≤ Dimen.unity) (hr : 0 ≤ r ∧ r < d) :
    ∃ f, part.mulAdd? n ⟨Dimen.unity * r⟩ = some f ∧ 0 ≤ f.scaled ∧
      f.scaled = part.scaled * n + Dimen.unity * r := by
  have hunity : Dimen.unity = 65536 := rfl
  have hgreatest : Dimen.greatest = 1073741823 := rfl
  have hlow : 0 ≤ part.scaled * n := Int.mul_nonneg hpart.1 hn
  have hhigh : part.scaled * n ≤ Dimen.unity * n := Int.mul_le_mul_of_nonneg_right hpart.2 hn
  rw [hunity] at hhigh ⊢
  refine ⟨⟨part.scaled * n + 65536 * r⟩, Dimen.ofScaled?_eq_some_iff.2 ⟨?_, ?_, rfl⟩, ?_, rfl⟩
  all_goals
    dsimp only
    omega

/-- **A conversion gives the exact length, rounded down,** where that is legal, and nothing elsewhere. -/
theorem convert?_eq (hn : 0 ≤ n) (hd : 0 < d) (hsmall : n + d ≤ 16384) (hwhole : 0 ≤ whole)
    (hpart : 0 ≤ part.scaled ∧ part.scaled ≤ Dimen.unity) :
    convert? n d whole part = Dimen.ofScaled? (n * (Dimen.unity * whole + part.scaled) / d) := by
  have hproduct : 0 ≤ whole * n := Int.mul_nonneg hwhole hn
  have hq : 0 ≤ whole * n / d := Int.ediv_nonneg hproduct (Int.le_of_lt hd)
  have hr : 0 ≤ whole * n % d := Int.emod_nonneg _ (Int.ne_of_gt hd)
  have hrd : whole * n % d < d := Int.emod_lt_of_pos _ hd
  obtain ⟨f, hadd, hf, hfvalue⟩ := mulAdd?_carried hn hsmall hpart ⟨hr, hrd⟩
  have hcarried : Dimen.ofPoints? (whole * n % d) = some ⟨Dimen.unity * (whole * n % d)⟩ :=
    Dimen.ofPoints?_eq_some_iff.2 ⟨by omega, by omega, rfl⟩
  have hdivided : 0 ≤ f.scaled / d := Int.ediv_nonneg hf (Int.le_of_lt hd)
  rw [ediv_by_parts _ _ _ (Int.ne_of_gt hd), ← hfvalue]
  unfold convert?
  rw [Dimen.scaleBy?_of_nonneg hproduct (Int.ne_of_gt hd), Dimen.ofScaled?_of_nonneg hq]
  dsimp only
  by_cases hle : whole * n / d ≤ Dimen.greatest
  · rw [if_pos hle, ← Dimen.map_ofPoints?_add hq hdivided]
    simp only [Option.map_some, Option.bind_eq_bind, Option.bind_some, hcarried, hadd,
      Dimen.dividedBy_of_nonneg hf, Dimen.wholePoints_of_nonneg hdivided,
      Dimen.fraction_of_nonneg hdivided]
    exact Option.map_eq_bind.symm
  · -- so many scaled points are too many, and so many points even more
    have hgreat : ¬ Dimen.unity * (whole * n / d) + f.scaled / d ≤ Dimen.greatest := by
      unfold Dimen.unity
      omega
    rw [if_neg hle, Dimen.ofScaled?_of_nonneg (by unfold Dimen.unity; omega), if_neg hgreat]
    rfl

theorem fraction_cases (hpoint : u ≠ .point) (hscaled : u ≠ .scaledPoint) :
    0 ≤ u.fraction.1 ∧ 0 < u.fraction.2 ∧ u.fraction.1 + u.fraction.2 ≤ 16384 := by
  cases u with
  | point => exact absurd rfl hpoint
  | scaledPoint => exact absurd rfl hscaled
  | _ => decide

theorem exact_point : exact .point whole part = Dimen.unity * whole + part.scaled := by
  unfold exact fraction
  rw [Int.one_mul, Int.ediv_one]

/-- The length that a unit gives is the exact one, rounded down, and that is given where it is legal. -/
theorem times?_exact (hu : u ≠ .scaledPoint) (hwhole : 0 ≤ whole)
    (hpart : 0 ≤ part.scaled ∧ part.scaled ≤ Dimen.unity) :
    (u.exact whole part ≤ Dimen.greatest → u.times? whole part = some ⟨u.exact whole part⟩) ∧
      ∀ v, u.times? whole part = some v → v = ⟨u.exact whole part⟩ := by
  by_cases hpoint : u = .point
  · subst hpoint
    rw [exact_point]
    have htimes : times? .point whole part = (Dimen.ofPoints? whole).map (· + part) := rfl
    rw [htimes]
    constructor
    · intro hle
      unfold Dimen.unity Dimen.greatest at *
      rw [Dimen.ofPoints?_eq_some_iff.2 ⟨by omega, by omega, rfl⟩]
      rfl
    · intro v hv
      obtain ⟨points, hpoints, rfl⟩ := Option.map_eq_some_iff.1 hv
      obtain ⟨-, -, rfl⟩ := Dimen.ofPoints?_eq_some_iff.1 hpoints
      rfl
  · obtain ⟨hn, hd, hsmall⟩ := fraction_cases hpoint hu
    have hconvert : u.times? whole part = Dimen.ofScaled? (u.exact whole part) :=
      (times?_eq_convert? hpoint hu).trans (convert?_eq hn hd hsmall hwhole hpart)
    have hnonneg : 0 ≤ u.exact whole part := by
      refine Int.ediv_nonneg (Int.mul_nonneg hn ?_) (Int.le_of_lt hd)
      unfold Dimen.unity
      omega
    rw [hconvert]
    constructor
    · intro hle
      rw [Dimen.ofScaled?_of_nonneg hnonneg, if_pos hle]
    · intro v hv
      exact (Dimen.ofScaled?_eq_some_iff.1 hv).2.2

end LengthUnit

/-! ### Words -/

/-- Arithmetic in words. Where a result is no word, there is no answer at all; that a length is too large
is an answer. -/
abbrev InWords := OptionT Option

namespace InWords

variable {α β : Type} {n d whole : Int} {x y part : Dimen}

/-- The result of an operation on words. -/
def word (n : Int) : InWords Int := OptionT.mk ((Word.checked? n).map some)

/-- A whole number of points. -/
def points (n : Int) : InWords Dimen :=
  if -16384 < n && n < 16384 then return ⟨← word (Dimen.unity * n)⟩ else failure

/-- A length times `n / d` and the remainder. The product is wider than a word, but what it is divided
into must be words again. -/
def scaleBy (x : Dimen) (n d : Int) : InWords (Dimen × Dimen) :=
  if d = 0 then failure
  else do
    let r ← word ((x.scaled * n).tmod d)
    if Dimen.isLegal ⟨(x.scaled * n).tdiv d⟩ then return (⟨← word ((x.scaled * n).tdiv d)⟩, ⟨r⟩)
    else failure

/-- A length times `n`, plus another one. -/
def mulAdd (x : Dimen) (n : Int) (y : Dimen) : InWords Dimen :=
  if Dimen.isLegal ⟨x.scaled * n + y.scaled⟩ then return ⟨← word (x.scaled * n + y.scaled)⟩
  else failure

/-- A conversion. -/
def convert (n d whole : Int) (part : Dimen) : InWords Dimen := do
  let (i, remainder) ← scaleBy ⟨whole⟩ n d
  let carried ← points remainder.scaled
  let f ← mulAdd part n carried
  let f ← word (f.scaled.tdiv d)
  let k ← word (f.tdiv Dimen.unity)
  let p ← points (← word (i.scaled + k))
  let r ← word (f.tmod Dimen.unity)
  return ⟨← word (p.scaled + r)⟩

/-- The length of `whole + part` units. -/
def times (u : LengthUnit) (whole : Int) (part : Dimen) : InWords Dimen :=
  match u with
  | .scaledPoint => if whole > Dimen.greatest then failure else return ⟨whole⟩
  | .point => do
    let p ← points whole
    return ⟨← word (p.scaled + part.scaled)⟩
  | u => convert u.fraction.1 u.fraction.2 whole part

/-- What decimals make, in halves of a scaled point. -/
def halves : List Nat → InWords Int
  | [] => return 0
  | d :: ds => do
    let a ← halves ds
    let digit ← word (d * 131072)
    return (← word (a + digit)).tdiv 10

/-- The part of a point that decimals make. -/
def fraction (ds : List Nat) : InWords Dimen := do
  let a ← halves ds
  return ⟨(← word (a + 1)).tdiv 2⟩

/-- An answer that was computed without words. -/
def answer (o : Option α) : InWords α := OptionT.mk (some o)

theorem word_of_fits (h : Word.fits n = true) : word n = pure n := by
  unfold word
  rw [Word.checked?_eq_some_iff.2 ⟨h, rfl⟩]
  rfl

/-- Answers are combined as if there were no words, if the operations on what is given stay in words. -/
theorem answer_bind {o : Option α} {f : α → InWords β} {g : α → Option β}
    (h : ∀ a, o = some a → f a = answer (g a)) : answer o >>= f = answer (o.bind g) := by
  cases o with
  | none => rfl
  | some a => exact h a rfl

theorem fits_of_isLegal (h : x.isLegal = true) : Word.fits x.scaled = true := by
  have hlegal := Dimen.isLegal_iff.1 h
  rw [Word.fits_iff]
  omega

theorem points_eq (n : Int) : points n = answer (Dimen.ofPoints? n) := by
  unfold points Dimen.ofPoints?
  by_cases h : (decide (-16384 < n) && decide (n < 16384)) = true
  · have hfits : Word.fits (Dimen.unity * n) = true := by
      rw [Bool.and_eq_true, decide_eq_true_iff, decide_eq_true_iff] at h
      rw [Word.fits_iff]
      unfold Dimen.unity
      omega
    rw [if_pos h, if_pos h, word_of_fits hfits]
    rfl
  · rw [if_neg h, if_neg h]
    rfl

theorem mulAdd_eq (x : Dimen) (n : Int) (y : Dimen) : mulAdd x n y = answer (x.mulAdd? n y) := by
  unfold mulAdd Dimen.mulAdd? Dimen.ofScaled?
  by_cases h : Dimen.isLegal ⟨x.scaled * n + y.scaled⟩ = true
  · rw [if_pos h, if_pos h, word_of_fits (fits_of_isLegal h)]
    rfl
  · rw [if_neg h, if_neg h]
    rfl

theorem scaleBy_eq (x : Dimen) (n : Int) (hd : Word.fits d = true) :
    scaleBy x n d = answer (x.scaleBy? n d) := by
  unfold scaleBy Dimen.scaleBy? Dimen.ofScaled?
  by_cases hzero : d = 0
  · rw [if_pos hzero, if_pos hzero]
    rfl
  · have hremainder : Word.fits ((x.scaled * n).tmod d) = true := by
      have hlt : ((x.scaled * n).tmod d).natAbs < d.natAbs := by
        rw [Int.natAbs_tmod]
        exact Nat.mod_lt _ (Int.natAbs_pos.2 hzero)
      rw [Word.fits_iff] at hd ⊢
      omega
    rw [if_neg hzero, if_neg hzero, word_of_fits hremainder, pure_bind]
    by_cases h : Dimen.isLegal ⟨(x.scaled * n).tdiv d⟩ = true
    · rw [if_pos h, if_pos h, word_of_fits (fits_of_isLegal h)]
      rfl
    · rw [if_neg h, if_neg h]
      rfl

/-- A conversion can be done in words. -/
theorem convert_eq (n : Int) (hd : Word.fits d = true) (whole : Int) (part : Dimen) :
    convert n d whole part = answer (LengthUnit.convert? n d whole part) := by
  unfold convert LengthUnit.convert?
  rw [scaleBy_eq _ n hd]
  refine answer_bind fun ⟨i, remainder⟩ hi => ?_
  dsimp only
  rw [points_eq]
  refine answer_bind fun ⟨carried⟩ hcarried => ?_
  rw [mulAdd_eq]
  refine answer_bind fun f hf => ?_
  have hdivided := Dimen.isLegal_dividedBy (n := d) (Dimen.isLegal_of_mulAdd? hf)
  have hquotient : Word.fits (f.scaled.tdiv d) = true := fits_of_isLegal hdivided
  have hwhole : Word.fits ((f.scaled.tdiv d).tdiv Dimen.unity) = true :=
    fits_of_isLegal (Dimen.isLegal_dividedBy hdivided)
  have hsum : Word.fits (i.scaled + (f.scaled.tdiv d).tdiv Dimen.unity) = true :=
    LengthUnit.fits_points_of_convert hi hf
  have hfraction : ((f.scaled.tdiv d).tmod Dimen.unity).natAbs < 65536 :=
    Dimen.natAbs_fraction_lt (f.dividedBy d)
  have hrest : Word.fits ((f.scaled.tdiv d).tmod Dimen.unity) = true := by
    rw [Word.fits_iff]
    omega
  rw [word_of_fits hquotient, pure_bind, word_of_fits hwhole, pure_bind, word_of_fits hsum, pure_bind,
    points_eq]
  refine answer_bind fun p hp => ?_
  obtain ⟨hlow, hhigh, hvalue⟩ := Dimen.ofPoints?_eq_some_iff.1 hp
  have htotal : Word.fits (p.scaled + (f.scaled.tdiv d).tmod Dimen.unity) = true := by
    rw [Word.fits_iff, hvalue]
    dsimp only
    unfold Dimen.unity at *
    omega
  rw [word_of_fits hrest, pure_bind, word_of_fits htotal]
  rfl

theorem halves_eq {ds : List Nat} (h : ∀ d ∈ ds, d < 10) :
    halves ds = pure ((ds.foldr (fun d a => (a + d * 131072) / 10) 0 : Nat) : Int) := by
  induction ds with
  | nil => rfl
  | cons d ds ih =>
    obtain ⟨hd, hds⟩ := List.forall_mem_cons.1 h
    have hbelow := Dimen.foldr_decimals_le hds
    have hdigit : Word.fits ((d : Int) * 131072) = true := by
      rw [Word.fits_iff]
      omega
    rw [halves, ih hds, pure_bind, word_of_fits hdigit, pure_bind, List.foldr_cons]
    generalize ds.foldr (fun d a => (a + d * 131072) / 10) 0 = a at hbelow ⊢
    have hsum : Word.fits ((a : Int) + d * 131072) = true := by
      rw [Word.fits_iff]
      omega
    rw [word_of_fits hsum, pure_bind, Int.ofNat_tdiv]
    rfl

/-- **Decimals can be computed in words,** however many there are. -/
theorem fraction_eq {ds : List Nat} (h : ∀ d ∈ ds, d < 10) :
    fraction ds = pure (Dimen.ofDecimalFraction ds) := by
  have hbelow := Dimen.foldr_decimals_le h
  unfold fraction Dimen.ofDecimalFraction
  rw [halves_eq h, pure_bind]
  generalize ds.foldr (fun d a => (a + d * 131072) / 10) 0 = a at hbelow ⊢
  have hround : Word.fits ((a : Int) + 1) = true := by
    rw [Word.fits_iff]
    omega
  rw [word_of_fits hround, pure_bind, Int.ofNat_tdiv]
  rfl

/-- **Lengths can be computed in words,** in whatever unit: no operation on the way leaves them. -/
theorem times_eq (u : LengthUnit) (whole : Int)
    (hpart : 0 ≤ part.scaled ∧ part.scaled ≤ Dimen.unity) :
    times u whole part = answer (u.times? whole part) := by
  by_cases hpoint : u = .point
  · subst hpoint
    have htimes : LengthUnit.point.times? whole part = (Dimen.ofPoints? whole).bind
        fun p => some (p + part) := Option.map_eq_bind
    unfold times
    rw [htimes, points_eq]
    refine answer_bind fun p hp => ?_
    obtain ⟨hlow, hhigh, hvalue⟩ := Dimen.ofPoints?_eq_some_iff.1 hp
    have htotal : Word.fits (p.scaled + part.scaled) = true := by
      rw [Word.fits_iff, hvalue]
      dsimp only
      unfold Dimen.unity at *
      omega
    rw [word_of_fits htotal]
    rfl
  · by_cases hscaled : u = .scaledPoint
    · subst hscaled
      unfold times LengthUnit.times?
      dsimp only
      split <;> rfl
    · have hd : Word.fits u.fraction.2 = true := by
        cases u <;> decide
      have htimes : times u whole part = convert u.fraction.1 u.fraction.2 whole part := by
        cases u with
        | point => exact absurd rfl hpoint
        | scaledPoint => exact absurd rfl hscaled
        | _ => rfl
      rw [htimes, convert_eq _ hd, LengthUnit.times?_eq_convert? hpoint hscaled]

end InWords

namespace Reader

/-- **Lengths are exact.**

Where a unit other than scaled points follows a number without sign, whose decimals make at most a point,
its length is computed in words. It is the exact length of the number in that unit, rounded down to scaled
points, whenever that is legal; and if there is a length at all, it is that one. -/
theorem scaled_exact (x : Expander) (m m' : Machine) (u : LengthUnit) (whole : Int) (part : Dimen)
    (hu : u ≠ .scaledPoint) (hwhole : 0 ≤ whole)
    (hpart : 0 ≤ part.scaled ∧ part.scaled ≤ Dimen.unity) (h : factor x m = (.ok (.inl u), m')) :
    ∃ length, scaled x whole part m = (.ok length, m') ∧
      (InWords.times u whole part).run = some length ∧
      (u.exact whole part ≤ Dimen.greatest → length = some ⟨u.exact whole part⟩) ∧
      ∀ v, length = some v → v = ⟨u.exact whole part⟩ := by
  obtain ⟨hexact, honly⟩ := LengthUnit.times?_exact hu hwhole hpart
  refine ⟨u.times? whole part, ?_, congrArg OptionT.run (InWords.times_eq u whole hpart), hexact, honly⟩
  rw [scaled_eq, Run.bind_of_ok h]
  rfl

/-- One and a half inches, whose unit is written in capitals after a space. -/
theorem scaled_exact_inch :
    let space : Token := .char .space ' ' none
    let letters : List Token := [.char .letter 'I' none, .char .other 'N' none]
    ∃ m', scaled expand 1 ⟨32768⟩ (Machine.ready.push (space :: letters)) =
      (.ok (some ⟨7104430⟩), m') ∧ m'.remaining = [] := by
  intro space letters
  have hspace : ∀ t ∈ [space], t.value.isSpace = true := by decide
  have hentry : ("in", LengthUnit.inch) ∈ LengthUnit.all := by decide
  have hspells : Stream.Spells "in".toList letters := .cons rfl (.cons rfl .nil)
  have hend : Machine.ready.Meets (fun _ => True) [] := trivial
  obtain ⟨m', hfactor, hleft⟩ := factor_spelled (x := expand) [space]
    (Machine.before_ready.push (space :: letters)) hspace hentry hspells hend
  obtain ⟨length, hscaled, -, hexact, -⟩ :=
    scaled_exact expand _ m' .inch 1 ⟨32768⟩ (by decide) (by decide) (by decide) hfactor
  obtain rfl := hexact (by decide)
  exact ⟨m', hscaled, hleft.remaining⟩

end Reader

end Gullet
