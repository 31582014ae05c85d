import Gullet.Dimen
import Mathlib.Data.Nat.Digits.Defs
import Mathlib.Tactic.IntervalCases
import Mathlib.Tactic.Ring

/-!
# Decimals of a dimension

The decimals of a dimension are read back as the part of a point that they were written for, and no
shorter decimals are.

Digits are written one after another until those that have been written are within half a scaled point
of the fraction. Reading rounds down at every digit and once more at the end, to the nearest half; taken
together this rounds the fraction that the digits stand for once, so that there is an interval of
fractions that are read as a given number of scaled points. What carries the proof is that the part that
is still to be written measures how far the digits are from the upper end of that interval.
-/

namespace Gullet.Dimen

/-! ### Reading a fraction -/

/-- The number that decimal digits make. -/
def numeral (ds : List Nat) : Nat := Nat.ofDigits 10 ds.reverse

@[simp] theorem numeral_nil : numeral [] = 0 := rfl

theorem numeral_cons (d : Nat) (ds : List Nat) :
    numeral (d :: ds) = d * 10 ^ ds.length + numeral ds := by
  unfold numeral
  rw [List.reverse_cons, Nat.ofDigits_append, Nat.ofDigits_singleton, List.length_reverse,
    Nat.mul_comm, Nat.add_comm]

/-- Rounding down at every digit rounds down once. -/
theorem foldr_fraction (unit : Nat) (ds : List Nat) :
    ds.foldr (fun d a => (a + d * unit) / 10) 0 = unit * numeral ds / 10 ^ ds.length := by
  induction ds with
  | nil => simp
  | cons d ds ih =>
    have hpos : 0 < 10 ^ ds.length := Nat.pow_pos (by decide)
    calc (ds.foldr (fun d a => (a + d * unit) / 10) 0 + d * unit) / 10
        = (unit * numeral ds / 10 ^ ds.length + d * unit) / 10 := by rw [ih]
      _ = (unit * numeral ds + d * unit * 10 ^ ds.length) / 10 ^ ds.length / 10 := by
          rw [Nat.add_mul_div_right _ _ hpos]
      _ = unit * numeral (d :: ds) / 10 ^ (d :: ds).length := by
          rw [Nat.div_div_eq_div_mul, ← Nat.pow_succ, numeral_cons, Nat.mul_add, Nat.add_comm,
            Nat.mul_left_comm unit, Nat.mul_assoc, List.length_cons]

/-- The fraction `v / 10 ^ k` of a point is rounded to `x` scaled points. -/
structure RoundsTo (k v x : Nat) : Prop where
  lower : 2 * x * 10 ^ k ≤ 131072 * v + 10 ^ k
  upper : 131072 * v < (2 * x + 1) * 10 ^ k

theorem odd_mul (x q : Nat) : (2 * x + 1) * q = 2 * x * q + q := by ring

/-- A fraction is read as the number of scaled points that it is rounded to. -/
theorem ofDecimalFraction_eq_iff {ds : List Nat} {x : Nat} :
    ofDecimalFraction ds = ⟨x⟩ ↔ RoundsTo ds.length (numeral ds) x := by
  have hpos : 0 < 10 ^ ds.length := Nat.pow_pos (by decide)
  have hlower : 2 * x ≤ 131072 * numeral ds / 10 ^ ds.length + 1 ↔
      2 * x * 10 ^ ds.length ≤ 131072 * numeral ds + 10 ^ ds.length := by
    rw [← Nat.add_div_right _ hpos, Nat.le_div_iff_mul_le hpos]
  have hupper : 131072 * numeral ds / 10 ^ ds.length < 2 * x + 1 ↔
      131072 * numeral ds < (2 * x + 1) * 10 ^ ds.length := Nat.div_lt_iff_lt_mul hpos
  have hhalf : ofDecimalFraction ds = ⟨x⟩ ↔
      2 * x ≤ 131072 * numeral ds / 10 ^ ds.length + 1 ∧
        131072 * numeral ds / 10 ^ ds.length < 2 * x + 1 := by
    unfold ofDecimalFraction
    rw [foldr_fraction, Dimen.mk.injEq, Int.natCast_inj]
    omega
  rw [hhalf, hlower, hupper]
  exact ⟨fun h => ⟨h.1, h.2⟩, fun h => ⟨h.lower, h.upper⟩⟩

/-! ### Writing a fraction -/

section

variable {x k p f : Nat}

/-- After `k` digits that make the number `p`, the part `f` of `x` scaled points is still to be written,
and the digits do not suffice yet. -/
structure Unwritten (x k p f : Nat) : Prop where
  balance : 2 * f + 1310720 * p = (2 * x + 1) * 10 ^ (k + 1)
  small : f < 655360
  large : 0 < k → 10 ^ (k + 1) < f

/-- The digit that is written next, and what is left after it, are still balanced. -/
theorem Unwritten.balance_next (h : Unwritten x k p f) :
    131072 * (10 * p + f / 65536) + 2 * (f % 65536) = (2 * x + 1) * 10 ^ (k + 1) := by
  have hbalance := h.balance
  omega

/-- Something is always left, since no power of ten that is written is a multiple of so many twos. -/
theorem Unwritten.rest_pos (h : Unwritten x k p f) (hk : k < 4) : 0 < f % 65536 := by
  have hbalance := h.balance_next
  interval_cases k <;> omega

/-- Where little is left, the digits suffice. -/
theorem Unwritten.roundsTo_next (h : Unwritten x k p f) (hk : k < 4)
    (hrest : f % 65536 ≤ 10 ^ (k + 1)) : RoundsTo (k + 1) (10 * p + f / 65536) x := by
  have hbalance := h.balance_next
  have hpos := h.rest_pos hk
  rw [odd_mul] at hbalance
  constructor
  · omega
  · rw [odd_mul]
    omega

/-- Where more is left, no number of as many digits suffices. -/
theorem Unwritten.not_roundsTo_next (h : Unwritten x k p f)
    (hrest : 10 ^ (k + 1) < f % 65536) (v : Nat) : ¬ RoundsTo (k + 1) v x := by
  rintro ⟨hlower, hupper⟩
  have hbalance := h.balance_next
  rw [odd_mul] at hbalance
  rw [odd_mul] at hupper
  omega

theorem Unwritten.next (h : Unwritten x k p f) (hrest : 10 ^ (k + 1) < f % 65536) :
    Unwritten x (k + 1) (10 * p + f / 65536) (f % 65536 * 10) where
  balance := by
    have hbalance := h.balance_next
    have hpow : (2 * x + 1) * 10 ^ (k + 1 + 1) = (2 * x + 1) * 10 ^ (k + 1) * 10 :=
      (Nat.mul_assoc _ _ _).symm
    omega
  small := by omega
  large _ := by
    rw [Nat.pow_succ]
    omega

/-- The fifth digit is rounded, and always suffices. -/
theorem Unwritten.roundsTo_last (h : Unwritten x 4 p f) :
    RoundsTo 5 (10 * p + (f - 17232) / 65536) x := by
  have hbalance := h.balance
  have hsmall := h.small
  have hlarge := h.large (by decide)
  constructor
  · omega
  · omega

/-- The digits that are written: there are some, they suffice, and no fewer do. -/
structure Suffices (x k p : Nat) (ds : List Nat) : Prop where
  nonempty : ds ≠ []
  digits : ∀ d ∈ ds, d < 10
  length : k + ds.length ≤ 5
  roundsTo : RoundsTo (k + ds.length) (p * 10 ^ ds.length + numeral ds) x
  shortest : ∀ j, k < j → j < k + ds.length → ∀ v, ¬ RoundsTo j v x

theorem suffices_singleton {d : Nat} (hk : k < 5) (hd : d < 10)
    (h : RoundsTo (k + 1) (10 * p + d) x) : Suffices x k p [d] where
  nonempty := List.cons_ne_nil _ _
  digits := by simpa using hd
  length := hk
  roundsTo := by
    have hnumeral : p * 10 ^ [d].length + numeral [d] = 10 * p + d := by
      rw [numeral_cons, numeral_nil]
      simp [Nat.mul_comm]
    rw [hnumeral]
    exact h
  shortest j hlt hlt' := by
    simp only [List.length_singleton] at hlt'
    omega

theorem Suffices.cons {d : Nat} {ds : List Nat} (h : Suffices x (k + 1) (10 * p + d) ds)
    (hd : d < 10) (hnot : ∀ v, ¬ RoundsTo (k + 1) v x) : Suffices x k p (d :: ds) where
  nonempty := List.cons_ne_nil _ _
  digits := List.forall_mem_cons.2 ⟨hd, h.digits⟩
  length := by
    have hlength := h.length
    rw [List.length_cons]
    omega
  roundsTo := by
    have hnumeral : p * 10 ^ (d :: ds).length + numeral (d :: ds) =
        (10 * p + d) * 10 ^ ds.length + numeral ds := by
      rw [numeral_cons, List.length_cons, Nat.pow_succ]
      ring
    have hlength : k + (d :: ds).length = k + 1 + ds.length := by
      rw [List.length_cons]
      omega
    rw [hnumeral, hlength]
    exact h.roundsTo
  shortest j hlt hlt' v := by
    by_cases hj : j = k + 1
    · subst hj
      exact hnot v
    · refine h.shortest j (by omega) ?_ v
      rw [List.length_cons] at hlt'
      omega

/-- **The digits that are written suffice, and no fewer do.** The induction is on the digits that may
still be written. -/
theorem suffices_fractionDigits (fuel : Nat) (hfuel : fuel + k = 4) (h : Unwritten x k p f) :
    Suffices x k p (fractionDigits (fuel + 1) f (10 ^ (k + 1))) := by
  have hsmall := h.small
  induction fuel generalizing k p f with
  | zero =>
    obtain rfl : k = 4 := by omega
    have hlarge := h.large (by decide)
    unfold fractionDigits
    have hstop : (f - 17232) % 65536 * 10 ≤ 10 ^ (4 + 1) * 10 := by omega
    dsimp only
    rw [if_pos (by decide), if_pos hstop]
    exact suffices_singleton (by decide) (by omega) h.roundsTo_last
  | succ fuel ih =>
    have hk : k < 4 := by omega
    have hdelta : ¬ 10 ^ (k + 1) > 65536 := by interval_cases k <;> decide
    unfold fractionDigits
    dsimp only
    rw [if_neg hdelta]
    by_cases hrest : f % 65536 ≤ 10 ^ (k + 1)
    · have hstop : f % 65536 * 10 ≤ 10 ^ (k + 1) * 10 := Nat.mul_le_mul_right 10 hrest
      rw [if_pos hstop]
      exact suffices_singleton (by omega) (by omega) (h.roundsTo_next hk hrest)
    · have hgo : ¬ f % 65536 * 10 ≤ 10 ^ (k + 1) * 10 := by omega
      have hmore := Nat.lt_of_not_le hrest
      have hnext := h.next hmore
      rw [if_neg hgo, ← Nat.pow_succ]
      exact (ih (by omega) hnext hnext.small).cons (by omega) (h.not_roundsTo_next hmore)

end

/-! ### Decimals -/

variable (x : Dimen)

/-- The scaled points of a dimension beside its whole points, without sign. -/
def fractionSize : Nat := x.scaled.natAbs % 65536

theorem fraction_abs : x.abs.fraction = ⟨x.fractionSize⟩ := rfl

theorem suffices_decimals : Suffices x.fractionSize 0 0 x.decimals := by
  have hlt : x.fractionSize < 65536 := Nat.mod_lt _ (by decide)
  have hstart : Unwritten x.fractionSize 0 0 (x.fractionSize * 10 + 5) :=
    ⟨by omega, by omega, fun h => absurd h (Nat.lt_irrefl 0)⟩
  exact suffices_fractionDigits 4 rfl hstart

theorem lt_of_mem_decimals {d : Nat} (h : d ∈ x.decimals) : d < 10 := x.suffices_decimals.digits d h

/-- The decimals are read back as the fraction that they were written for. -/
theorem ofDecimalFraction_decimals : ofDecimalFraction x.decimals = x.abs.fraction := by
  have hrounds := x.suffices_decimals.roundsTo
  rw [Nat.zero_add, Nat.zero_mul, Nat.zero_add] at hrounds
  rw [fraction_abs]
  exact ofDecimalFraction_eq_iff.2 hrounds

/-- No fewer decimals are read back as the fraction. -/
theorem ofDecimalFraction_ne {ds : List Nat} (hds : ds ≠ [])
    (hlt : ds.length < x.decimals.length) : ofDecimalFraction ds ≠ x.abs.fraction := by
  intro h
  rw [fraction_abs] at h
  refine x.suffices_decimals.shortest ds.length (List.length_pos_iff.2 hds) ?_ _
    (ofDecimalFraction_eq_iff.1 h)
  omega

end Gullet.Dimen
