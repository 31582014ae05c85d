import Gullet.Proofs.Dimen.Range
import Gullet.Variable

/-!
# Registers that hold words

Numbers are kept as integers, and every register that is written by a program holds a word. The least word
is a value of its own: it has no negative, and only addition, which wraps around, leads to it. So a number
that is read is the least word only if a register holds the least word.
-/

namespace Gullet

namespace Word

variable {n : Int}

theorem fits_neg (h : fits n = true) (hne : n ≠ least) : fits (-n) = true := by
  rw [fits_iff] at *
  unfold least at hne
  omega

theorem wrap_neg_of_ne_least (h : fits n = true) (hne : n ≠ least) : wrap (-n) = -n :=
  wrap_of_fits (fits_neg h hne)

/-- Only the least word is turned into the least word. -/
theorem wrap_neg_eq_least_iff (h : fits n = true) : wrap (-n) = least ↔ n = least := by
  by_cases hne : n = least
  · rw [hne]
    decide
  · rw [wrap_neg_of_ne_least h hne]
    rw [fits_iff] at h
    unfold least at *
    omega

theorem fits_of_checked? {r : Int} (h : checked? n = some r) : fits r = true := by
  obtain ⟨hfits, rfl⟩ := checked?_eq_some_iff.1 h
  exact hfits

theorem fits_of_div? {b r : Int} (h : div? n b = some r) : fits r = true := by
  unfold div? at h
  split at h
  · cases h
  · exact fits_of_checked? h

end Word

namespace Store

/-- Whatever register is read, a word is found. -/
structure HoldsWords (s : Store) : Prop where
  int (v : IntVariable) : Word.fits (s.int v) = true
  dimen (index : Nat) : Word.fits (s.dimen index).scaled = true

/-- A register holds the least word. -/
def HoldsLeast (s : Store) : Prop :=
  (∃ v, s.int v = Word.least) ∨ ∃ index, (s.dimen index).scaled = Word.least

/-- The number is a word, and it is the least one only if a register holds that. -/
structure Yields (s : Store) (n : Int) : Prop where
  fits : Word.fits n = true
  least (h : n = Word.least) : s.HoldsLeast

variable {s : Store} {n : Int}

/-- In a new store every register holds nothing, which is a word. -/
theorem holdsWords_empty : HoldsWords {} where
  int v := by
    have hv : (({} : Store).int v) = 0 := by
      simp [Store.int, ScopedMap.get?]
    rw [hv]
    decide
  dimen index := by
    have hv : (({} : Store).dimen index) = .zero := by
      simp [Store.dimen, ScopedMap.get?]
    rw [hv]
    decide

theorem HoldsWords.yields_int (h : s.HoldsWords) (v : IntVariable) : s.Yields (s.int v) :=
  ⟨h.int v, fun hv => .inl ⟨v, hv⟩⟩

theorem HoldsWords.yields_dimen (h : s.HoldsWords) (index : Nat) :
    s.Yields (s.dimen index).scaled := ⟨h.dimen index, fun hv => .inr ⟨index, hv⟩⟩

theorem yields_of_nonneg (h : 0 ≤ n) (hn : n ≤ 2147483647) : s.Yields n := by
  refine ⟨?_, fun hleast => ?_⟩
  · rw [Word.fits_iff]
    omega
  · unfold Word.least at hleast
    omega

theorem yields_of_isLegal {d : Dimen} (h : d.isLegal = true) : s.Yields d.scaled := by
  rw [Dimen.isLegal_iff] at h
  refine ⟨?_, fun hleast => ?_⟩
  · rw [Word.fits_iff]
    omega
  · unfold Word.least at hleast
    omega

theorem Yields.wrap_neg (h : s.Yields n) : s.Yields (Word.wrap (-n)) :=
  ⟨Word.fits_wrap _, fun hleast => h.least ((Word.wrap_neg_eq_least_iff h.fits).1 hleast)⟩

theorem Yields.neg (h : s.Yields n) (hne : n ≠ Word.least) : s.Yields (-n) := by
  rw [← Word.wrap_neg_of_ne_least h.fits hne]
  exact h.wrap_neg

/-- The number without its sign is not negative, unless it is the least word. -/
theorem Yields.abs (h : s.Yields n) (hn : n < 0) :
    0 ≤ Word.wrap (-n) ∨ Word.wrap (-n) = Word.least ∧ s.HoldsLeast := by
  by_cases hleast : n = Word.least
  · exact .inr ⟨(Word.wrap_neg_eq_least_iff h.fits).2 hleast, h.least hleast⟩
  · rw [Word.wrap_neg_of_ne_least h.fits hleast]
    exact .inl (by omega)

end Store

end Gullet
