import Mathlib.Data.List.TakeWhile
import Gullet.Diagnostic.Rendering

/-!
# The lines of a rendered diagnostic

Blanks at the end of a line are cut off when it is written. A note is cut into its lines, and each of
them is written behind the margin; so what becomes of a text with several lines is what becomes of its
parts, one after the other.
-/

namespace Gullet

open Text

variable {xs ys zs : List Char}

/-! ### Blanks at the end -/

/-- One text is the other but for blanks that are missing at its end. -/
def Trimmed (shown whole : List Char) : Prop :=
  ∃ blanks, shown ++ blanks = whole ∧ ∀ c ∈ blanks, isBlank c = true

namespace Trimmed

theorem refl (xs : List Char) : Trimmed xs xs := ⟨[], List.append_nil _, by simp⟩

theorem trans (h : Trimmed xs ys) (h' : Trimmed ys zs) : Trimmed xs zs := by
  obtain ⟨blanks, rfl, hblanks⟩ := h
  obtain ⟨blanks', rfl, hblanks'⟩ := h'
  refine ⟨blanks ++ blanks', (List.append_assoc _ _ _).symm, fun c hc => ?_⟩
  exact (List.mem_append.1 hc).elim (hblanks c) (hblanks' c)

theorem append_left (before : List Char) (h : Trimmed xs ys) : Trimmed (before ++ xs) (before ++ ys) := by
  obtain ⟨blanks, rfl, hblanks⟩ := h
  exact ⟨blanks, List.append_assoc _ _ _, hblanks⟩

theorem append_right {blanks : List Char} (hblanks : ∀ c ∈ blanks, isBlank c = true) :
    Trimmed xs (xs ++ blanks) := ⟨blanks, rfl, hblanks⟩

theorem dropEndWhile (xs : List Char) : Trimmed (dropEndWhile isBlank xs) xs := by
  refine ⟨_, dropEndWhile_append isBlank xs, fun c hc => ?_⟩
  exact List.mem_takeWhile_imp (List.mem_reverse.1 hc)

end Trimmed

/-- What stands before something that is no blank is not cut off. -/
theorem dropEndWhile_append_cons {p : Char → Bool} {x : Char} (hx : p x = false)
    (xs ys : List Char) : dropEndWhile p (xs ++ x :: ys) = xs ++ x :: dropEndWhile p ys := by
  unfold dropEndWhile
  rw [List.reverse_append, List.reverse_cons, List.append_assoc, List.dropWhile_append]
  split
  · rename_i hempty
    rw [List.isEmpty_iff.1 hempty, List.singleton_append, List.dropWhile_cons_of_neg (by simp [hx])]
    simp
  · simp

theorem dropEndWhile_of_getLast? {p : Char → Bool} {x : Char} (hlast : xs.getLast? = some x)
    (hx : p x = false) : dropEndWhile p xs = xs := by
  obtain ⟨init, rfl⟩ := List.getLast?_eq_some_iff.1 hlast
  rw [dropEndWhile_append_cons hx]
  rfl

/-! ### First and last lines -/

/-- A text up to its first line feed. -/
def firstLine (xs : List Char) : List Char := xs.takeWhile (· ≠ '\n')

theorem newline_not_mem_firstLine (xs : List Char) : '\n' ∉ firstLine xs :=
  fun h => by simpa using List.mem_takeWhile_imp h

theorem firstLine_append_cases (xs : List Char) :
    firstLine xs = xs ∨ ∃ more, xs = firstLine xs ++ '\n' :: more := by
  have hwhole : firstLine xs ++ xs.dropWhile (· ≠ '\n') = xs := List.takeWhile_append_dropWhile
  cases hrest : xs.dropWhile (· ≠ '\n') with
  | nil => exact .inl (by rwa [hrest, List.append_nil] at hwhole)
  | cons c more =>
    have hhead := List.head?_dropWhile_not (fun c => decide (c ≠ '\n')) xs
    rw [hrest] at hhead
    obtain rfl : c = '\n' := by simpa using hhead
    exact .inr ⟨more, by rw [← hrest, hwhole]⟩

/-- Where blanks are cut off a text, the cut is in its first line, or the first line stays as it is. -/
theorem Trimmed.firstLine_cases (h : Trimmed xs ys) :
    Trimmed xs (firstLine ys) ∨ '\n' ∈ ys ∧ ∃ more, xs = firstLine ys ++ '\n' :: more := by
  obtain ⟨blanks, hwhole, hblanks⟩ := h
  rcases firstLine_append_cases ys with hline | ⟨below, hbelow⟩
  · rw [hline]
    exact .inl ⟨blanks, hwhole, hblanks⟩
  · rcases List.append_eq_append_iff.1 (hwhole.trans hbelow) with
      ⟨cut, hline, hcut⟩ | ⟨more, hxs, hmore⟩
    · refine .inl ⟨cut, hline.symm, fun c hc => hblanks c ?_⟩
      rw [hcut]
      exact List.mem_append_left _ hc
    · cases more with
      | nil =>
        rw [hxs, List.append_nil]
        exact .inl (.refl _)
      | cons c more =>
        obtain rfl : '\n' = c := (List.cons.inj hmore).1
        refine .inr ⟨?_, more, hxs⟩
        rw [hbelow]
        simp

theorem length_lastLine_le (xs : List Char) : (lastLine xs).length ≤ xs.length := by
  have h := (List.takeWhile_sublist (· ≠ '\n') (l := xs.reverse)).length_le
  rwa [List.length_reverse, ← List.length_reverse, ← lastLine] at h

theorem newline_not_mem_lastLine (xs : List Char) : '\n' ∉ lastLine xs := by
  intro h
  simpa using List.mem_takeWhile_imp (List.mem_reverse.1 h)

theorem lastLine_cases (xs : List Char) :
    lastLine xs = xs ∨ ∃ above, xs = above ++ '\n' :: lastLine xs := by
  rcases firstLine_append_cases xs.reverse with hline | ⟨more, hmore⟩
  · exact .inl (by rw [lastLine, ← firstLine, hline, List.reverse_reverse])
  · refine .inr ⟨more.reverse, ?_⟩
    have hxs := congrArg List.reverse hmore
    rw [List.reverse_reverse] at hxs
    simpa [lastLine, firstLine] using hxs

theorem length_lastLine_eq_iff {xs : List Char} :
    (lastLine xs).length = xs.length ↔ '\n' ∉ xs := by
  rcases lastLine_cases xs with hline | ⟨above, habove⟩
  · simpa [hline] using hline ▸ newline_not_mem_lastLine xs
  · have hlength := congrArg List.length habove
    rw [List.length_append, List.length_cons] at hlength
    have hmem : '\n' ∈ xs := by
      rw [habove]
      simp
    simp only [hmem, not_true_eq_false, iff_false]
    omega

/-! ### Lines behind the margin -/

theorem toList_marginLine (margin : Nat) (inMargin : String) (separator : Char) (content : String) :
    (marginLine .plain margin inMargin separator content).toList =
      List.replicate (margin - (inMargin.length + 1)) ' ' ++ inMargin.toList ++
        ' ' :: separator :: ' ' :: (dropEndWhile isBlank content.toList ++ ['\n']) := by
  simp [marginLine, spaces, trimEnd]

/-- The text is nothing or ends with the end of a line. -/
def IsLines (xs : List Char) : Prop := xs = [] ∨ xs.getLast? = some '\n'

theorem IsLines.append (hx : IsLines xs) (hy : IsLines ys) : IsLines (xs ++ ys) := by
  rcases hy with rfl | hy
  · rwa [List.append_nil]
  · exact .inr (by rw [List.getLast?_append, hy, Option.some_or])

theorem isLines_append_newline (xs ys : List Char) : IsLines (xs ++ (ys ++ ['\n'])) := by
  rw [← List.append_assoc]
  exact .inr List.getLast?_concat

theorem isLines_append_marginLine (xs : List Char) (margin : Nat) (inMargin : String)
    (separator : Char) (content : String) :
    IsLines (xs ++ (marginLine .plain margin inMargin separator content).toList) := by
  rw [marginLine, String.toList_append]
  exact isLines_append_newline _ _

/-- A carriage return at the end of a line is cut off. -/
def withoutReturn (part : List Char) : List Char :=
  if part.getLast? = some '\r' then part.dropLast else part

theorem trimmed_withoutReturn (part : List Char) : Trimmed (withoutReturn part) part := by
  unfold withoutReturn
  split
  · rename_i hlast
    obtain ⟨init, rfl⟩ := List.getLast?_eq_some_iff.1 hlast
    rw [List.dropLast_concat]
    exact .append_right (List.forall_mem_singleton.2 (by decide))
  · exact .refl _

/-- How far a line of a note is set in, margin and separator included. -/
def inset (margin : Nat) : List Char := List.replicate (margin + 8) ' '

/-- A line of a note that is not the first one, behind the margin. -/
def wrapped (margin : Nat) (part : List Char) : List Char :=
  List.replicate (margin + 2) ' ' ++
    (dropEndWhile isBlank (List.replicate 6 ' ' ++ withoutReturn part) ++ ['\n'])

/-- The lines of a text, which are not the first ones of a note, behind the margin. -/
def wrap (margin : Nat) (xs : List Char) : List Char :=
  (xs.splitOn '\n').flatMap (wrapped margin)

variable {margin : Nat}

theorem wrap_append_newline (xs ys : List Char) :
    wrap margin (xs ++ '\n' :: ys) = wrap margin xs ++ wrap margin ys := by
  rw [wrap, List.splitOn_append_cons_self, List.flatMap_append, wrap, wrap]

theorem wrap_of_not_mem (h : '\n' ∉ xs) : wrap margin xs = wrapped margin xs := by
  rw [wrap, List.splitOn_eq_singleton h, List.flatMap_singleton]

theorem Trimmed.not_mem_of_isLine (h : Trimmed xs (firstLine ys)) : '\n' ∉ xs := by
  obtain ⟨blanks, hwhole, -⟩ := h
  intro hmem
  exact newline_not_mem_firstLine ys (hwhole ▸ List.mem_append_left _ hmem)

theorem isLines_wrap (margin : Nat) (xs : List Char) : IsLines (wrap margin xs) := by
  unfold wrap
  induction xs.splitOn '\n' with
  | nil => exact .inl rfl
  | cons part rest ih =>
    exact IsLines.append (isLines_append_newline _ _) ih

/-- What follows a text is written behind the last line of the text. -/
theorem exists_wrap_append (margin : Nat) (xs ys : List Char) :
    ∃ above, wrap margin (xs ++ ys) = above ++ wrap margin (lastLine xs ++ ys) ∧ IsLines above := by
  rcases lastLine_cases xs with hline | ⟨above, habove⟩
  · exact ⟨[], by rw [hline, List.nil_append], .inl rfl⟩
  · have hwhole : xs ++ ys = above ++ '\n' :: (lastLine xs ++ ys) := by
      rw [← List.cons_append, ← List.append_assoc, ← habove]
    exact ⟨wrap margin above, by rw [hwhole, wrap_append_newline], isLines_wrap _ _⟩

theorem inset_eq (margin : Nat) :
    inset margin = List.replicate (margin + 2) ' ' ++ List.replicate 6 ' ' := by
  rw [inset, List.replicate_append_replicate]

/-- A line is written with blanks missing at its end. -/
theorem exists_trimmed_wrapped (margin : Nat) (part : List Char) :
    ∃ shown, wrapped margin part = shown ++ ['\n'] ∧ Trimmed shown (inset margin ++ part) := by
  refine ⟨_, (List.append_assoc _ _ _).symm, ?_⟩
  rw [inset_eq, List.append_assoc]
  refine .append_left _ (.trans (.dropEndWhile _) (.append_left _ (trimmed_withoutReturn part)))

/-- What stands before something that is no blank is written as it is. -/
theorem exists_wrapped_cons {x : Char} (hx : isBlank x = false) (margin : Nat)
    (before after : List Char) :
    ∃ rest, wrapped margin (before ++ x :: after) = inset margin ++ before ++ x :: (rest ++ ['\n']) := by
  have hreturn : withoutReturn (before ++ x :: after) = before ++ x :: withoutReturn after := by
    unfold withoutReturn
    cases after with
    | nil =>
      have hne : x ≠ '\r' := by
        rintro rfl
        revert hx
        decide
      simp [hne]
    | cons y after => split <;> simp_all [List.getLast?_cons_cons, List.dropLast_cons_of_ne_nil]
  refine ⟨dropEndWhile isBlank (withoutReturn after), ?_⟩
  rw [wrapped, hreturn, ← List.append_assoc (List.replicate 6 ' '), dropEndWhile_append_cons hx,
    inset_eq]
  simp

/-! ### Lines of a source -/

variable {line before : List Char}

/-- A line of a source that is written as it is, but for blanks at its end. -/
theorem exists_shown (before : List Char) (h : Trimmed xs line) :
    ∃ shown below, before ++ (xs ++ ['\n']) = shown ++ '\n' :: below ∧
      Trimmed shown (before ++ firstLine line) ∧ IsLines below ∧ ('\n' ∉ line → below = []) := by
  rcases h.firstLine_cases with hline | ⟨hnewline, more, rfl⟩
  · exact ⟨before ++ xs, [], by simp, hline.append_left before, .inl rfl, fun _ => rfl⟩
  · exact ⟨before ++ firstLine line, more ++ ['\n'], by simp, .refl _, .inr List.getLast?_concat,
      fun h => absurd hnewline h⟩

/-- A line of a source that is written as part of a note. -/
theorem exists_shown_wrap (margin : Nat) (hbefore : '\n' ∉ before) (h : Trimmed xs line) :
    ∃ shown below, wrap margin (before ++ xs) = shown ++ '\n' :: below ∧
      Trimmed shown (inset margin ++ (before ++ firstLine line)) ∧ IsLines below ∧
      ('\n' ∉ line → below = []) := by
  rcases h.firstLine_cases with hline | ⟨hnewline, more, rfl⟩
  · have hpart : '\n' ∉ before ++ xs := by simp [hbefore, hline.not_mem_of_isLine]
    obtain ⟨shown, hshown, htrimmed⟩ := exists_trimmed_wrapped margin (before ++ xs)
    refine ⟨shown, [], by rw [wrap_of_not_mem hpart, hshown], ?_, .inl rfl, fun _ => rfl⟩
    exact htrimmed.trans ((hline.append_left before).append_left _)
  · have hpart : '\n' ∉ before ++ firstLine line := by simp [hbefore, newline_not_mem_firstLine]
    obtain ⟨shown, hshown, htrimmed⟩ := exists_trimmed_wrapped margin (before ++ firstLine line)
    refine ⟨shown, wrap margin more, ?_, htrimmed, isLines_wrap _ _, fun h => absurd hnewline h⟩
    rw [← List.append_assoc, wrap_append_newline, wrap_of_not_mem hpart, hshown, List.append_assoc,
      List.singleton_append]

/-- The lines of texts that are joined by line feeds are those of the texts. -/
theorem wrap_intercalate {texts : List (List Char)} (hne : texts ≠ []) :
    wrap margin (List.intercalate ['\n'] texts) = texts.flatMap (wrap margin) := by
  induction texts with
  | nil => exact absurd rfl hne
  | cons text rest ih =>
    cases rest with
    | nil => simp
    | cons next rest =>
      rw [List.intercalate_cons_cons, List.append_assoc, List.singleton_append, wrap_append_newline,
        ih (List.cons_ne_nil _ _)]
      simp only [List.flatMap_cons]

end Gullet
