import Mathlib.Data.String.Basic
import Gullet.Proofs.Spelling.Distance

/-!
# Which words are suggested

The suggestions for a word are the words of the dictionary that are near to it, as often as the
dictionary holds them, the nearest first and in alphabetical order where they are equally near.
-/

namespace Gullet.Spelling

namespace CloseWord

theorem before_iff (a b : CloseWord) :
    a.before b = true ↔ a.distance < b.distance ∨ a.distance = b.distance ∧ a.word ≤ b.word := by
  simp [before]

theorem before_trans (a b c : CloseWord) (hab : a.before b = true) (hbc : b.before c = true) :
    a.before c = true := by
  rw [before_iff] at *
  rcases hab with hab | ⟨hab, hword⟩ <;> rcases hbc with hbc | ⟨hbc, hword'⟩
  · exact .inl (hab.trans hbc)
  · exact .inl (hbc ▸ hab)
  · exact .inl (hab ▸ hbc)
  · exact .inr ⟨hab.trans hbc, hword.trans hword'⟩

theorem before_total (a b : CloseWord) : (a.before b || b.before a) = true := by
  rw [Bool.or_eq_true, before_iff, before_iff]
  rcases Nat.lt_trichotomy a.distance b.distance with h | h | h
  · exact .inl (.inl h)
  · rcases le_total a.word b.word with hword | hword
    · exact .inl (.inr ⟨h, hword⟩)
    · exact .inr (.inr ⟨h.symm, hword⟩)
  · exact .inr (.inl h)

end CloseWord

/-- A word of the dictionary with its distance from the word looked up. -/
def measured (word candidate : String) : CloseWord :=
  ⟨candidate, distance word.toList candidate.toList⟩

/-- What is found before it is put in order. -/
theorem filterMap_measured (bound : Nat) (word : String) (dictionary : List String) :
    (dictionary.filterMap fun candidate =>
      let d := distance word.toList candidate.toList
      if d ≤ bound then some ⟨candidate, d⟩ else none) =
      (dictionary.map (measured word)).filter fun w => w.distance ≤ bound := by
  induction dictionary with
  | nil => rfl
  | cons candidate rest ih =>
    rw [List.map_cons, List.filterMap_cons, List.filter_cons, ← ih]
    by_cases h : distance word.toList candidate.toList ≤ bound <;> simp [measured, h]

/-- The greatest distance of a suggestion, for a word that is not empty. -/
theorem le_bound_iff {word : String} (hword : word ≠ "") (d : Nat) :
    d ≤ min greatestDistance (word.toList.length - 1) ↔ d ≤ 3 ∧ d < word.length := by
  have hpos : 0 < word.length := by
    rw [Nat.pos_iff_ne_zero]
    exact fun h => hword (String.length_eq_zero_iff.1 h)
  rw [String.length_toList, greatestDistance]
  omega

/-- The distance of two words is the least number of characters that have to be inserted, deleted or
replaced, one after the other, to turn one word into the other. The suggestions for a word that is not
empty are the words of the dictionary whose distance is 3 at most and less than the length of the word,
ordered by their distances and then alphabetically. -/
theorem closeWords_nearest :
    (∀ target word : List Char, IsLeast {n | EditsTo n target word} (distance target word)) ∧
      ∀ (dictionary : List String) (word : String), word ≠ "" →
        (closeWords dictionary word).Perm
            ((dictionary.map fun w => ⟨w, distance word.toList w.toList⟩).filter fun w =>
              w.distance ≤ 3 ∧ w.distance < word.length) ∧
          (closeWords dictionary word).Pairwise fun v w =>
            v.distance < w.distance ∨ v.distance = w.distance ∧ v.word ≤ w.word := by
  refine ⟨isLeast_distance, fun dictionary word hword => ?_⟩
  have hclose : closeWords dictionary word =
      ((dictionary.map (measured word)).filter fun w =>
        w.distance ≤ 3 ∧ w.distance < word.length).mergeSort CloseWord.before := by
    rw [closeWords, filterMap_measured]
    simp only [le_bound_iff hword]
  rw [hclose]
  refine ⟨List.mergeSort_perm _ _, ?_⟩
  exact (List.pairwise_mergeSort CloseWord.before_trans CloseWord.before_total _).imp
    fun {v w} h => (v.before_iff w).1 h

/-- Of four words, three are near to `xdef`; two of them are equally near. -/
theorem closeWords_nearest_xdef :
    "xdef" ≠ "" ∧
      (closeWords ["gdef", "edef", "def", "expandafter"] "xdef").Perm
        [⟨"gdef", 1⟩, ⟨"edef", 1⟩, ⟨"def", 1⟩] ∧
      (closeWords ["gdef", "edef", "def", "expandafter"] "xdef").Pairwise fun v w =>
        v.distance < w.distance ∨ v.distance = w.distance ∧ v.word ≤ w.word := by
  have hword : "xdef" ≠ "" := by decide
  obtain ⟨hperm, hordered⟩ :=
    closeWords_nearest.2 ["gdef", "edef", "def", "expandafter"] "xdef" hword
  refine ⟨hword, ?_, hordered⟩
  have hfound : ((["gdef", "edef", "def", "expandafter"].map fun w =>
      (⟨w, distance "xdef".toList w.toList⟩ : CloseWord)).filter fun w =>
        w.distance ≤ 3 ∧ w.distance < "xdef".length) = [⟨"gdef", 1⟩, ⟨"edef", 1⟩, ⟨"def", 1⟩] := by
    decide
  rwa [hfound] at hperm

end Gullet.Spelling
