import Mathlib.Data.List.Forall2
import Mathlib.Data.String.Basic
import Gullet.Proofs.Diagnostic.Lines

/-!
# Marks below the source

Wherever a diagnostic shows a line of a source, marks stand below the token. In the blocks both lines
have a margin of the same width, so the first mark stands below the first character of the token,
whatever the line and the token contain. In the list of running commands the place stands before the
line, and the marks are set in by the bytes of the place, not by its characters: there the first mark is
too far to the right, by as many columns as the place has more bytes than its last line has characters.
-/

namespace Gullet

open Text

/-- A text of whole lines. One of them shows the line of a source, behind a lead; another one, below it,
holds marks, and the first of them stands `shift` columns to the right of the place in the line. -/
structure Pointer (t : Trace) (shift : Nat) (text : List Char) where
  /-- The lines above. -/
  above : List Char
  /-- What stands before the line of the source. -/
  lead : List Char
  /-- The lead and the line of the source. -/
  shown : List Char
  /-- What else the source has in place of one line. -/
  below : List Char
  /-- What stands before the first mark. -/
  gap : List Char
  /-- What stands after the first mark. -/
  rest : List Char
  whole : text = above ++ (shown ++ '\n' :: (below ++ (gap ++ '^' :: (rest ++ ['\n']))))
  isLines_above : IsLines above
  isLines_below : IsLines below
  trimmed : Trimmed shown (lead ++ firstLine t.line.toList)
  adjacent : '\n' ∉ t.line.toList → below = []
  inline : '\n' ∉ lead ++ gap
  first : '^' ∉ gap
  aligned : gap.length = lead.length + t.index + shift

/-! ### Characters of places and of marks -/

theorem toList_spaces (n : Nat) : (spaces n).toList = List.replicate n ' ' := String.toList_ofList

theorem toList_carets (width : Nat) :
    (carets width).toList = '^' :: List.replicate (max width 1 - 1) '^' := by
  rw [carets, String.toList_ofList, ← List.replicate_succ]
  congr 1
  omega

theorem isDigit_of_mem_toString {n : Nat} {c : Char} (h : c ∈ (toString n).toList) :
    c.isDigit = true := by
  rw [Nat.toString_eq_ofList_toDigits, String.toList_ofList] at h
  exact Nat.isDigit_of_mem_toDigits (by decide) (by decide) h

theorem newline_not_mem_toString (n : Nat) : '\n' ∉ (toString n).toList :=
  fun h => absurd (isDigit_of_mem_toString h) (by decide)

theorem utf8Size_of_mem_toString {n : Nat} {c : Char} (h : c ∈ (toString n).toList) :
    c.utf8Size = 1 := by
  have hdigit := isDigit_of_mem_toString h
  simp only [Char.isDigit, Bool.and_eq_true, decide_eq_true_eq] at hdigit
  have hlimit : (57 : UInt32) ≤ 127 := by decide
  exact Char.utf8Size_eq_one_iff.2 (UInt32.le_trans hdigit.2 hlimit)

theorem newline_not_mem_words (operation : Operation) : '\n' ∉ operation.words.toList := by
  cases operation <;> decide

theorem length_le_utf8Len (xs : List Char) : xs.length ≤ String.utf8Len xs := by
  induction xs with
  | nil => exact Nat.le_refl _
  | cons c rest ih =>
    have hpos := c.utf8Size_pos
    rw [List.length_cons, String.utf8Len_cons]
    omega

theorem utf8Len_eq_length_iff {xs : List Char} :
    String.utf8Len xs = xs.length ↔ ∀ c ∈ xs, c.utf8Size = 1 := by
  induction xs with
  | nil => simp
  | cons c rest ih =>
    have hpos := c.utf8Size_pos
    have hle := length_le_utf8Len rest
    rw [List.forall_mem_cons, ← ih, String.utf8Len_cons, List.length_cons]
    omega

/-- A text takes more bytes than its last line has characters, unless all its characters are one byte
and no line feed. -/
theorem utf8Len_sub_length_lastLine_eq_zero_iff {xs : List Char} :
    String.utf8Len xs - (lastLine xs).length = 0 ↔ ∀ c ∈ xs, c.utf8Size = 1 ∧ c ≠ '\n' := by
  have hlast := length_lastLine_le xs
  have hbytes := length_le_utf8Len xs
  have hboth : String.utf8Len xs - (lastLine xs).length = 0 ↔
      String.utf8Len xs = xs.length ∧ (lastLine xs).length = xs.length := by omega
  rw [hboth, utf8Len_eq_length_iff, length_lastLine_eq_iff]
  constructor
  · exact fun h c hc => ⟨h.1 c hc, fun heq => h.2 (heq ▸ hc)⟩
  · exact fun h => ⟨fun c hc => (h c hc).1, fun hmem => (h _ hmem).2 rfl⟩

/-- The line of a source is shown with blanks missing at its end at most. -/
theorem Trace.trimmed_highlighted (t : Trace) :
    Trimmed (t.highlighted .plain).toList t.line.toList := by
  unfold highlighted
  dsimp only
  split
  · exact .refl _
  · have hline : t.line.toList = t.line.toList.take t.index ++
        ((t.line.toList.drop t.index).take t.width ++ t.line.toList.drop (t.index + t.width)) := by
      rw [← List.drop_drop, List.take_append_drop, List.take_append_drop]
    have hend := Trimmed.dropEndWhile (t.line.toList.drop (t.index + t.width))
    have hall := (hend.append_left ((t.line.toList.drop t.index).take t.width)).append_left
      (t.line.toList.take t.index)
    rw [← hline] at hall
    simpa [trimEnd] using hall

/-! ### Blocks -/

namespace Block

variable {b : Block} {t : Trace}

/-- The lines of a block that show the line of the source and the marks. -/
def pointer (b : Block) (t : Trace) : String :=
  marginLine .plain b.margin (toString t.lineNumber) '|' (t.highlighted .plain) ++
    marginLine .plain b.margin "" '|' (b.markerLine .plain t)

theorem toList_markerLine (b : Block) (t : Trace) :
    (b.markerLine .plain t).toList =
      List.replicate t.index ' ' ++
        '^' :: (List.replicate (max t.width 1 - 1) '^' ++ ' ' :: b.caption.toList) := by
  simp [markerLine, toList_spaces, toList_carets]

/-- In a block the marks stand right below the token. -/
theorem nonempty_pointer (hsource : b.source = some t) :
    Nonempty (Pointer t 0 (b.pointer t).toList) := by
  have hmargin : b.margin = (toString t.lineNumber).length + 1 := by
    rw [margin, hsource]
  have hdigits := newline_not_mem_toString t.lineNumber
  unfold pointer
  generalize toString t.lineNumber = digits at hmargin hdigits ⊢
  -- Both lines begin with the same number of characters.
  let lead := digits.toList ++ [' ', '|', ' ']
  let gap := List.replicate digits.length ' ' ++ ([' ', '|', ' '] ++ List.replicate t.index ' ')
  let marks := List.replicate (max t.width 1 - 1) '^' ++ ' ' :: b.caption.toList
  have hupper : (marginLine .plain b.margin digits '|' (t.highlighted .plain)).toList =
      lead ++ (dropEndWhile isBlank (t.highlighted .plain).toList ++ ['\n']) := by
    simp [toList_marginLine, hmargin, lead]
  have hlower : (marginLine .plain b.margin "" '|' (b.markerLine .plain t)).toList =
      gap ++ '^' :: (dropEndWhile isBlank marks ++ ['\n']) := by
    rw [toList_marginLine, toList_markerLine, dropEndWhile_append_cons (by decide), hmargin]
    simp [gap, marks]
  have hinline : '\n' ∉ lead ++ gap := by simp [lead, gap, hdigits]
  have hfirst : '^' ∉ gap := by simp [gap]
  have haligned : gap.length = lead.length + t.index + 0 := by
    have hlength := String.length_toList (s := digits)
    simp [gap, lead]
    omega
  obtain ⟨shown, below, hshown, htrimmed, hbelow, hadjacent⟩ := exists_shown lead
    ((Trimmed.dropEndWhile (t.highlighted .plain).toList).trans t.trimmed_highlighted)
  refine ⟨⟨[], lead, shown, below, gap, dropEndWhile isBlank marks, ?_, .inl rfl, hbelow, htrimmed,
    hadjacent, hinline, hfirst, haligned⟩⟩
  rw [String.toList_append, hupper, hlower, hshown]
  simp

/-- A block shows the place after its title and before its notes. -/
theorem toList_render (hsource : b.source = some t) :
    ∃ opening, (b.render .plain).toList =
        opening ++ (b.pointer t).toList ++ b.notes.flatMap (fun n => (b.noteLines .plain n).toList) ∧
      IsLines opening := by
  refine ⟨(b.kind.label ++ ": " ++ b.title ++ "\n" ++ spaces (b.margin - 1) ++ "-->" ++ " " ++ t.place ++
    "\n").toList ++ (marginLine .plain b.margin "" '|' "").toList, ?_, isLines_append_marginLine _ _ _ _ _⟩
  simp [render, hsource, sourceLines, pointer, List.flatMap_map]

end Block

/-! ### The list of running commands -/

namespace Frame

/-- What stands before the line of the source in the list of running commands. -/
def start (f : Frame) : String := "  " ++ f.trace.place

/-- How far the marks of a running command are to the right of its token. -/
def drift (f : Frame) : Nat := f.start.utf8ByteSize - (lastLine f.start.toList).length

/-- The line with the marks of a running command. -/
def marks (f : Frame) : List Char :=
  List.replicate (f.start.utf8ByteSize + f.trace.index) ' ' ++ [' ', ' '] ++
    '^' :: (List.replicate (max f.trace.width 1 - 1) '^' ++ ' ' :: f.operation.words.toList)

theorem toList_render (f : Frame) :
    (f.render .plain).toList =
      f.start.toList ++ ([' ', ' '] ++ (f.trace.highlighted .plain).toList) ++ '\n' :: f.marks := by
  simp [render, start, marks, toList_spaces, toList_carets]

theorem newline_not_mem_marks (f : Frame) : '\n' ∉ f.marks := by
  simp [marks, newline_not_mem_words]

/-- In the list of running commands the marks stand to the right of the token, by the drift. -/
theorem nonempty_pointer (f : Frame) (margin : Nat) :
    Nonempty (Pointer f.trace f.drift (wrap margin (f.render .plain).toList)) := by
  have hbytes : (lastLine f.start.toList).length ≤ f.start.utf8ByteSize := by
    rw [← String.utf8Len_toList]
    exact (length_lastLine_le _).trans (length_le_utf8Len _)
  -- The line of the source follows the last line of what stands before it.
  let lead := inset margin ++ (lastLine f.start.toList ++ [' ', ' '])
  let gap := inset margin ++ (List.replicate (f.start.utf8ByteSize + f.trace.index) ' ' ++ [' ', ' '])
  have hbefore : '\n' ∉ lastLine f.start.toList ++ [' ', ' '] := by
    simp [newline_not_mem_lastLine]
  have hinline : '\n' ∉ lead ++ gap := by
    simp [lead, gap, inset, newline_not_mem_lastLine]
  have hfirst : '^' ∉ gap := by simp [gap, inset]
  have haligned : gap.length = lead.length + f.trace.index + f.drift := by
    simp [gap, lead, drift]
    omega
  obtain ⟨rest, hrest⟩ := exists_wrapped_cons (x := '^') (by decide) margin
    (List.replicate (f.start.utf8ByteSize + f.trace.index) ' ' ++ [' ', ' '])
    (List.replicate (max f.trace.width 1 - 1) '^' ++ ' ' :: f.operation.words.toList)
  have hlower : wrap margin f.marks = gap ++ '^' :: (rest ++ ['\n']) := by
    rw [wrap_of_not_mem f.newline_not_mem_marks, marks, hrest]
  obtain ⟨above, habove, hlines⟩ := exists_wrap_append margin f.start.toList
    ([' ', ' '] ++ (f.trace.highlighted .plain).toList)
  obtain ⟨shown, below, hshown, htrimmed, hbelow, hadjacent⟩ := exists_shown_wrap margin hbefore
    f.trace.trimmed_highlighted
  refine ⟨⟨above, lead, shown, below, gap, rest, ?_, hlines, hbelow, ?_, hadjacent, hinline, hfirst,
    haligned⟩⟩
  · rw [List.append_assoc] at hshown
    rw [toList_render, wrap_append_newline, hlower, habove, hshown]
    simp
  · rwa [List.append_assoc]

/-- The marks of a running command stand below its token exactly if every character of the origin is one
byte and no line feed. -/
theorem drift_eq_zero_iff (f : Frame) :
    f.drift = 0 ↔ ∀ c ∈ f.trace.origin.shown.toList, c.utf8Size = 1 ∧ c ≠ '\n' := by
  have hdigits : ∀ n : Nat, ∀ c ∈ (toString n).toList, c.utf8Size = 1 ∧ c ≠ '\n' := fun n c hc =>
    ⟨utf8Size_of_mem_toString hc, fun heq => newline_not_mem_toString n (heq ▸ hc)⟩
  have hspaces : ∀ c ∈ [' ', ' '], c.utf8Size = 1 ∧ c ≠ '\n' := fun c hc => by
    rw [List.eq_of_mem_replicate (n := 2) hc]
    decide
  have hcolon : ∀ c ∈ [':'], c.utf8Size = 1 ∧ c ≠ '\n' := fun c hc => by
    rw [List.mem_singleton.1 hc]
    decide
  rw [drift, ← String.utf8Len_toList, utf8Len_sub_length_lastLine_eq_zero_iff]
  have hstart : f.start.toList = [' ', ' '] ++ f.trace.origin.shown.toList ++ [':'] ++
      (toString f.trace.lineNumber).toList ++ [':'] ++ (toString (f.trace.index + 1)).toList := by
    simp [start, Trace.place]
  rw [hstart]
  simp only [List.forall_mem_append]
  exact ⟨fun h => h.1.1.1.1.2,
    fun h => ⟨⟨⟨⟨⟨hspaces, h⟩, hcolon⟩, hdigits _⟩, hcolon⟩, hdigits _⟩⟩

theorem getLast?_render (f : Frame) :
    ∃ c, (f.render .plain).toList.getLast? = some c ∧ isBlank c = false := by
  have hwords : ∃ c, f.operation.words.toList.getLast? = some c ∧ isBlank c = false := by
    cases f.operation <;> exact ⟨_, rfl, by decide⟩
  obtain ⟨c, hlast, hc⟩ := hwords
  obtain ⟨init, hinit⟩ := List.getLast?_eq_some_iff.1 hlast
  refine ⟨c, ?_, hc⟩
  have hmarks : f.marks.getLast? = some c := by
    have hwhole : f.marks = List.replicate (f.start.utf8ByteSize + f.trace.index) ' ' ++ [' ', ' '] ++
        '^' :: (List.replicate (max f.trace.width 1 - 1) '^' ++ ' ' :: init) ++ [c] := by
      simp [marks, hinit]
    rw [hwhole, List.getLast?_concat]
  rw [toList_render, List.getLast?_append, List.getLast?_cons, hmarks]
  rfl

end Frame

/-! ### Notes -/

/-- The last part of a text that is cut at line feeds is its last line. -/
theorem getLast?_splitOn (xs : List Char) :
    (xs.splitOn '\n').getLast? = some (lastLine xs) := by
  rcases lastLine_cases xs with hline | ⟨above, habove⟩
  · have hnot : '\n' ∉ xs := hline ▸ newline_not_mem_lastLine xs
    rw [List.splitOn_eq_singleton hnot, hline, List.getLast?_singleton]
  · have hsplit : xs.splitOn '\n' = above.splitOn '\n' ++ [lastLine xs] := by
      conv_lhs => rw [habove]
      rw [List.splitOn_append_cons_self, List.splitOn_eq_singleton (newline_not_mem_lastLine xs)]
    rw [hsplit, List.getLast?_concat]

theorem lastLine_ne_nil {xs : List Char} {c : Char} (hlast : xs.getLast? = some c) (hc : c ≠ '\n') :
    lastLine xs ≠ [] := by
  intro hnil
  rcases lastLine_cases xs with hline | ⟨above, habove⟩
  · rw [← hline, hnil] at hlast
    cases hlast
  · rw [habove, hnil, List.getLast?_concat] at hlast
    exact hc (Option.some.inj hlast).symm

/-- A text with several lines, of which the last one is not empty. -/
theorem linesOf_append_newline {note : String} {head body : List Char} {c : Char}
    (hnote : note.toList = head ++ '\n' :: body) (hhead : '\n' ∉ head)
    (hlast : body.getLast? = some c) (hc : c ≠ '\n') :
    linesOf note = String.ofList (withoutReturn head) ::
      (body.splitOn '\n').map fun part => String.ofList (withoutReturn part) := by
  have hsplit := List.splitOn_append_cons_self_of_not_mem hhead body
  have hend : (head :: body.splitOn '\n').getLast? ≠ some [] := by
    rw [List.getLast?_cons, getLast?_splitOn, Option.getD_some, ne_eq, Option.some.injEq]
    exact lastLine_ne_nil hlast hc
  rw [linesOf, hnote, hsplit]
  simp only [hend, if_false, withoutReturn, List.map_cons]

/-- What is written for a line of a note that is not the first one. -/
theorem toList_marginLine_wrapped {margin : Nat} (hmargin : 1 ≤ margin) (part : List Char) :
    (marginLine .plain margin "" ' ' ("      " ++ String.ofList (withoutReturn part))).toList =
      wrapped margin part := by
  have hsix : ("      " ++ String.ofList (withoutReturn part)).toList =
      List.replicate 6 ' ' ++ withoutReturn part := by
    simp [List.replicate]
  have hspaces : List.replicate (margin + 2) ' ' =
      List.replicate (margin - 1) ' ' ++ [' ', ' ', ' '] := by
    have hsum : margin + 2 = margin - 1 + 3 := by omega
    rw [hsum, List.replicate_add]
    rfl
  rw [toList_marginLine, wrapped, hsix, hspaces]
  simp

theorem Block.one_le_margin (b : Block) : 1 ≤ b.margin := by
  unfold margin
  split <;> omega

/-- A note with several lines, of which the last one does not end with a blank, is written with each of
them behind the margin. -/
theorem Block.toList_noteLines (b : Block) {note : String} {head body : List Char} {c : Char}
    (hnote : note.toList = head ++ '\n' :: body) (hhead : '\n' ∉ head)
    (hlast : body.getLast? = some c) (hc : isBlank c = false) :
    ∃ intro, (b.noteLines .plain note).toList = intro ++ wrap b.margin body ∧ IsLines intro := by
  have hne : c ≠ '\n' := by
    rintro rfl
    exact absurd hc (by decide)
  have htrim : trimEnd note = note := by
    have hend : note.toList.getLast? = some c := by
      rw [hnote, List.getLast?_append, List.getLast?_cons, hlast, Option.getD_some, Option.some_or]
    rw [trimEnd, dropEndWhile_of_getLast? hend hc, String.ofList_toList]
  rw [noteLines, htrim, linesOf_append_newline hnote hhead hlast hne]
  refine ⟨_, ?_, isLines_append_marginLine (marginLine .plain b.margin "" '|' "").toList b.margin "" '='
    (Styling.plain.bold "note:" ++ " " ++ String.ofList (withoutReturn head))⟩
  simp only [String.toList_append, String.toList_join, List.flatMap_map, List.map_map, wrap,
    Function.comp_def, toList_marginLine_wrapped b.one_le_margin]

/-- A text of whole lines that ends with a pointer for each of the running commands. -/
def Lists (stack : List Frame) (text : List Char) : Prop :=
  ∃ intro frames, text = intro ++ frames.flatten ∧ IsLines intro ∧
    List.Forall₂ (fun (f : Frame) shown => Nonempty (Pointer f.trace f.drift shown)) stack frames

/-- The last frame of a list of running commands ends in a character that is no blank. -/
theorem getLast?_intercalate_render {stack : List Frame} (hne : stack ≠ []) :
    ∃ c, (List.intercalate ['\n'] (stack.map fun f => (f.render .plain).toList)).getLast? = some c ∧
      isBlank c = false := by
  induction stack with
  | nil => exact absurd rfl hne
  | cons f outer ih =>
    cases outer with
    | nil => simpa using f.getLast?_render
    | cons g outer =>
      obtain ⟨c, hlast, hc⟩ := ih (List.cons_ne_nil _ _)
      rw [List.map_cons] at hlast
      refine ⟨c, ?_, hc⟩
      rw [List.map_cons, List.map_cons, List.intercalate_cons_cons, List.getLast?_append, hlast,
        Option.some_or]

/-- The note with the list of the running commands holds a pointer for each of them. -/
theorem Block.lists_noteLines (b : Block) {stack : List Frame} (hne : stack ≠ []) :
    Lists stack (b.noteLines .plain ("this is the full stack trace of the error:\n\n" ++
      "\n".intercalate (stack.map (Frame.render .plain)))).toList := by
  let frames := stack.map fun f => (f.render .plain).toList
  obtain ⟨c, hlast, hc⟩ := getLast?_intercalate_render hne
  have hnote : ("this is the full stack trace of the error:\n\n" ++
      "\n".intercalate (stack.map (Frame.render .plain))).toList =
      "this is the full stack trace of the error:".toList ++
        '\n' :: ([] ++ '\n' :: List.intercalate ['\n'] frames) := by
    simp [String.toList_intercalate, frames, Function.comp_def]
  have hbody : ([] ++ '\n' :: List.intercalate ['\n'] frames).getLast? = some c := by
    rw [List.nil_append, List.getLast?_cons, hlast, Option.getD_some]
  obtain ⟨intro, hlines, hintro⟩ := b.toList_noteLines hnote (by decide) hbody hc
  refine ⟨intro ++ wrap b.margin [], frames.map (wrap b.margin), ?_, hintro.append (isLines_wrap _ _), ?_⟩
  · rw [hlines, wrap_append_newline, wrap_intercalate (by simpa [frames] using hne), List.flatMap_def,
      List.append_assoc]
  · rw [List.forall₂_map_right_iff, List.forall₂_map_right_iff, List.forall₂_same]
    exact fun f _ => f.nonempty_pointer b.margin

/-! ### The whole diagnostic -/

/-- A text of whole lines with a title, a line of a source with the marks right below its token, and
notes. -/
def Shows (t : Trace) (notes text : List Char) : Prop :=
  ∃ opening pointer, text = opening ++ (pointer ++ notes) ∧ IsLines opening ∧
    Nonempty (Pointer t 0 pointer)

theorem Block.shows_render {b : Block} {t : Trace} (hsource : b.source = some t) :
    Shows t (b.notes.flatMap fun n => (b.noteLines .plain n).toList) (b.render .plain).toList := by
  obtain ⟨opening, hrender, hopening⟩ := b.toList_render hsource
  exact ⟨opening, _, by rw [hrender, List.append_assoc], hopening, b.nonempty_pointer hsource⟩

theorem Diagnostic.source_failureBlock (d : Diagnostic) {t : Trace} (htrace : d.trace = some t) :
    (d.failureBlock .plain).source = some t := by
  rw [failureBlock, htrace, Option.some_or]

/-- How a diagnostic with the given place is marked in a text. -/
structure Diagnostic.Marked (d : Diagnostic) (t : Trace) (text : List Char) : Prop where
  /-- Without running commands the fault is shown at its place, with the marks right below the token. -/
  alone : d.stack = [] → ∃ notes, Shows t notes text
  /-- The innermost running command is shown after it, in the same way. With several of them, they are
  all listed. -/
  within : ∀ innermost outer, d.stack = innermost :: outer →
    ∃ failure context notes list, text = failure ++ '\n' :: context ∧ Shows t notes failure ∧
      Shows innermost.trace list context ∧ (outer = [] → list = []) ∧
      (outer ≠ [] → Lists d.stack list)
  /-- In the list, the marks stand right below the tokens where the origin has only characters of one
  byte, in one line. -/
  listed : ∀ f ∈ d.stack,
    (f.drift = 0 ↔ ∀ c ∈ f.trace.origin.shown.toList, c.utf8Size = 1 ∧ c ≠ '\n')

/-- In a diagnostic with a place, the marks stand below the token of the fault and below the innermost
running command. In the list of running commands they do so exactly where the origin has only
characters of one byte, in one line; otherwise they are too far to the right. -/
theorem Diagnostic.marked_render {d : Diagnostic} {t : Trace} (htrace : d.trace = some t) :
    d.Marked t (d.render .plain).toList where
  alone := by
    intro hstack
    refine ⟨(d.failureBlock .plain).notes.flatMap fun n =>
      ((d.failureBlock .plain).noteLines .plain n).toList, ?_⟩
    rw [render, htrace, hstack, String.append_empty]
    exact Block.shows_render (d.source_failureBlock htrace)
  within := by
    intro innermost outer hstack
    have hcontext : (d.contextBlock .plain innermost).source = some innermost.trace := rfl
    refine ⟨_, _, _, _, ?_, Block.shows_render (d.source_failureBlock htrace),
      Block.shows_render hcontext, ?_, ?_⟩
    · rw [render, htrace, hstack]
      simp
    · rintro rfl
      simp [contextBlock, hstack]
    · intro hne
      have hseveral : 1 < d.stack.length := by
        have houter := List.length_pos_of_ne_nil hne
        rw [hstack, List.length_cons]
        omega
      have hnotes : (d.contextBlock .plain innermost).notes =
          ["this is the full stack trace of the error:\n\n" ++
            "\n".intercalate (d.stack.map (Frame.render .plain))] := if_pos hseveral
      rw [hnotes, List.flatMap_singleton]
      exact Block.lists_noteLines _ (by simp [hstack])
  listed := fun f _ => f.drift_eq_zero_iff

/-- What is said about `\count0=\number\par x`, in a text whose name is one character of two bytes. -/
def Diagnostic.accented : Diagnostic :=
  let place (index : Nat) (value : String) : Trace :=
    { origin := .text "é", line := "\\count0=\\number\\par x", lineNumber := 1, index, value }
  { fault := .expected .number (some ⟨.controlSequence "par", none⟩)
    trace := some (place 15 "\\par")
    stack := [⟨.expansion, ⟨.controlSequence "number", none⟩, place 8 "\\number"⟩,
      ⟨.variableAssignment, ⟨.controlSequence "count", none⟩, place 0 "\\count"⟩] }

/-- The name of the text is shown twice in the list of running commands, and both times the marks below
are one column too far to the right. -/
theorem Diagnostic.marked_render_accented :
    ∃ t, accented.trace = some t ∧ accented.Marked t (accented.render .plain).toList ∧
      accented.stack.map Frame.drift = [1, 1] :=
  ⟨_, rfl, marked_render rfl, by decide⟩

end Gullet
