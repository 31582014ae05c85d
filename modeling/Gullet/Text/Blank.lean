/-!
# Blanks

The Unicode property `White_Space`, and cutting blanks off the ends of a text.
-/

namespace Gullet.Text

/-- Whether the character has the Unicode property `White_Space`. -/
def isBlank (c : Char) : Bool :=
  let n := c.toNat
  (0x9 ≤ n && n ≤ 0xD) || n = 0x20 || n = 0x85 || n = 0xA0 || n = 0x1680 ||
    (0x2000 ≤ n && n ≤ 0x200A) || n = 0x2028 || n = 0x2029 || n = 0x202F || n = 0x205F || n = 0x3000

/-- The list without the elements at its end that satisfy `p`. -/
def dropEndWhile (p : α → Bool) (xs : List α) : List α :=
  (xs.reverse.dropWhile p).reverse

/-- The text without blanks at its end. -/
def trimEnd (s : String) : String :=
  String.ofList (dropEndWhile isBlank s.toList)

/-- The text without blanks at its ends. -/
def trim (s : String) : String :=
  String.ofList (dropEndWhile isBlank (s.toList.dropWhile isBlank))

/-- Blanks of the standard library are blanks here. -/
theorem isBlank_of_isWhitespace {c : Char} (h : c.isWhitespace = true) : isBlank c = true := by
  simp only [Char.isWhitespace, Bool.or_eq_true, decide_eq_true_eq] at h
  rcases h with ((rfl | rfl) | rfl) | rfl <;> decide

/-- What is cut off together with what remains is the whole list. -/
theorem dropEndWhile_append (p : α → Bool) (xs : List α) :
    dropEndWhile p xs ++ (xs.reverse.takeWhile p).reverse = xs := by
  rw [dropEndWhile, ← List.reverse_append, List.takeWhile_append_dropWhile, List.reverse_reverse]

/-- Where nothing is cut off the front, nothing is cut off the front of what remains at the end. -/
theorem dropWhile_dropEndWhile {p : α → Bool} {xs : List α} (h : xs.dropWhile p = xs) :
    (dropEndWhile p xs).dropWhile p = dropEndWhile p xs := by
  cases hd : dropEndWhile p xs with
  | nil => rfl
  | cons a rest =>
    have hxs := dropEndWhile_append p xs
    rw [hd] at hxs
    have ha : ¬ p a = true := by
      intro ha
      have hlt : (xs.dropWhile p).length < xs.length := by
        rw [← hxs, List.cons_append, List.dropWhile_cons_of_pos ha]
        exact Nat.lt_succ_of_le (List.dropWhile_sublist p).length_le
      rw [h] at hlt
      exact Nat.lt_irrefl _ hlt
    exact List.dropWhile_cons_of_neg ha

theorem dropWhile_dropWhile (p : α → Bool) (xs : List α) :
    (xs.dropWhile p).dropWhile p = xs.dropWhile p := by
  induction xs with
  | nil => rfl
  | cons x rest ih =>
    by_cases hx : p x = true
    · rw [List.dropWhile_cons_of_pos hx]
      exact ih
    · rw [List.dropWhile_cons_of_neg hx, List.dropWhile_cons_of_neg hx]

theorem dropEndWhile_dropEndWhile (p : α → Bool) (xs : List α) :
    dropEndWhile p (dropEndWhile p xs) = dropEndWhile p xs := by
  unfold dropEndWhile
  rw [List.reverse_reverse, dropWhile_dropWhile]

theorem mem_dropWhile {p : α → Bool} {xs : List α} {a : α} (h : a ∈ xs) (ha : p a = false) :
    a ∈ xs.dropWhile p := by
  induction xs with
  | nil => exact h
  | cons x rest ih =>
    by_cases hx : p x = true
    · rw [List.dropWhile_cons_of_pos hx]
      rcases List.mem_cons.1 h with rfl | h
      · simp [hx] at ha
      · exact ih h
    · rw [List.dropWhile_cons_of_neg hx]
      exact h

/-- What has been trimmed has no blanks at its ends. -/
theorem trim_trim (s : String) : trim (trim s) = trim s := by
  unfold trim
  rw [String.toList_ofList, dropWhile_dropEndWhile (dropWhile_dropWhile _ _),
    dropEndWhile_dropEndWhile]

/-- Characters that are no blanks stay. -/
theorem mem_trim {s : String} {c : Char} (h : c ∈ s.toList) (hc : isBlank c = false) :
    c ∈ (trim s).toList := by
  unfold trim dropEndWhile
  rw [String.toList_ofList, List.mem_reverse]
  exact mem_dropWhile (List.mem_reverse.2 (mem_dropWhile h hc)) hc

theorem length_trim_le (s : String) : (trim s).toList.length ≤ s.toList.length := by
  unfold trim dropEndWhile
  rw [String.toList_ofList, List.length_reverse]
  have hend := (List.dropWhile_sublist isBlank (l := (s.toList.dropWhile isBlank).reverse)).length_le
  have hfront := (List.dropWhile_sublist isBlank (l := s.toList)).length_le
  rw [List.length_reverse] at hend
  exact Nat.le_trans hend hfront

end Gullet.Text
