import Gullet.Proofs.Lexer.Accounting

/-!
# The stretches of a source

A lexer goes over its source in stretches: it reads one character, which may be written by its code, and
with it the name after an escape character, or the rest of the line after the end of a line or a comment
character. Every call reads some stretches, of which the last one may give a token.

Where a stretch ends is decided by the characters as they stand in the source, not as they are decoded.
So when the end of a line is a superscript, and its doubled form writes the code of the end of a line or
of a comment character, the lexer turns back into the code that it has just read. Nothing else makes it
turn back, whatever the categories are and however they change.
-/

namespace Gullet

/-- A part of a source that a lexer reads in one go. -/
structure Stretch where
  /-- The lexer before. -/
  before : Lexer
  /-- The categories of the characters. -/
  code : Char → CatCode
  /-- The character that is read first. -/
  first : ReadChar
  read : readChar? code before.rest = some first

/-- The lexer has read the beginning of the text, up to the end of some character. -/
def Lexer.LiesIn (content : List Char) (lx : Lexer) : Prop :=
  ∃ done, done ++ lx.rest = content ∧ lx.offset = byteSize done

namespace Stretch

/-- What the stretch leads to. -/
def outcome (s : Stretch) : Lexer.Outcome := (s.before.step s.code s.first).1

/-- The lexer afterwards. -/
def after (s : Stretch) : Lexer := (s.before.step s.code s.first).2

/-- The characters that contribute to the outcome: the first one, with its code, and those that the lexer
goes over after it. -/
def text (s : Stretch) : List Char :=
  s.before.rest.take
    (s.before.rest.length - min s.first.rest.length s.after.rest.length)

/-- The stretch goes on to the end of its line. -/
def TakesLine (s : Stretch) : Prop :=
  s.code s.first.char = .endOfLine ∨ s.code s.first.char = .comment

/-- The first character is written by its code. -/
def IsCoded (s : Stretch) : Prop := s.first.rest ≠ s.before.rest.tail

/-- The stretch takes its line, and the code of its first character begins with the end of a line. -/
def TurnsBack (s : Stretch) : Prop :=
  s.TakesLine ∧ s.IsCoded ∧ s.before.rest.head?.any isLineEnd = true

end Stretch

/-- The end of a line is skipped, with the line feed that belongs to it. -/
theorem afterLineEnd_cons (c : Char) (rest : List Char) :
    ∃ ended, (∀ x ∈ ended, isLineEnd x = true) ∧ ended ++ (afterLineEnd (c :: rest)).1 = rest := by
  unfold afterLineEnd
  split
  case h_1 heq =>
    rw [(List.cons.inj heq).2]
    exact ⟨['\n'], by simp [isLineEnd], rfl⟩
  case h_2 heq =>
    rw [(List.cons.inj heq).2]
    exact ⟨[], by simp, rfl⟩
  case h_3 heq => cases heq

/-- Of a character that stands twice only the first one is skipped, as it is no carriage return that a
line feed follows. -/
theorem afterLineEnd_twice (c : Char) (rest : List Char) :
    (afterLineEnd (c :: c :: rest)).1 = c :: rest := by
  unfold afterLineEnd
  split
  case h_1 heq =>
    obtain ⟨rfl, hfeed⟩ := List.cons.inj heq
    cases (List.cons.inj hfeed).1
  case h_2 heq => rw [(List.cons.inj heq).2]
  case h_3 heq => cases heq

namespace Lexer

variable {lx : Lexer} {code : Char → CatCode} {r : ReadChar}

/-- The lexer behind the line in which the character stands. -/
def behindLine (lx : Lexer) (r : ReadChar) : Lexer :=
  { lx.moveTo (skipLine lx.rest r.rest r.width).1 (skipLine lx.rest r.rest r.width).2 with
    state := .newLine }

/-- A comment takes the rest of its line. Its text is kept if it is to be, and if it can be. -/
theorem step_of_comment (h : code r.char = .comment) :
    lx.step code r =
      if lx.retain then
        if (skipLine lx.rest r.rest r.width).2 < r.width then
          (.fail .reversedComment, lx.behindLine r)
        else (.skip, { lx.behindLine r with
          comments := ⟨commentText lx.rest r.rest, lx.keys.keyAt lx.offset⟩ :: lx.comments })
      else (.skip, lx.behindLine r) := by
  unfold step
  rw [h]
  rfl

/-- The end of a line takes the rest of its line. It is a paragraph break, a space or nothing. -/
theorem step_of_endOfLine (h : code r.char = .endOfLine) :
    lx.step code r =
      (match lx.state with
        | .newLine => .token ⟨.par, lx.keys.keyAt lx.offset⟩
        | .midLine => .token (.char .space ' ' (lx.keys.keyAt lx.offset))
        | .skipBlanks => .skip, lx.behindLine r) := by
  unfold step
  rw [h]
  cases lx.state <;> rfl

/-- After an escape character a name may be missing, and no comment is kept. -/
theorem controlSequence_spec (lx : Lexer) (code : Char → CatCode) (key : SourceKey) :
    (lx.controlSequence code key).1 ≠ .error .reversedComment ∧
      (lx.controlSequence code key).2.comments = lx.comments := by
  unfold controlSequence
  split
  · exact ⟨nofun, rfl⟩
  · split <;> exact ⟨nofun, rfl⟩

/-- Nothing but a comment keeps a comment. -/
theorem step_of_ne_comment (h : code r.char ≠ .comment) :
    (lx.step code r).1 ≠ .fail .reversedComment ∧ (lx.step code r).2.comments = lx.comments := by
  have hname := (lx.moveTo r.rest r.width).controlSequence_spec code (lx.keys.keyAt lx.offset)
  unfold step
  dsimp only
  split
  · split
    case h_1 hcs =>
      rw [hcs] at hname
      exact ⟨nofun, hname.2⟩
    case h_2 hcs =>
      rw [hcs] at hname
      exact ⟨fun heq => hname.1 (by rw [Outcome.fail.inj heq]), hname.2⟩
  · split <;> exact ⟨nofun, rfl⟩
  · split <;> exact ⟨nofun, rfl⟩
  case h_4 hcomment => exact absurd hcomment h
  · exact ⟨nofun, rfl⟩
  · exact ⟨nofun, rfl⟩
  · split <;> exact ⟨nofun, rfl⟩

end Lexer

namespace Stretch

variable {s : Stretch}

/-! ### Where a stretch ends -/

theorem first_suffix (s : Stretch) : s.first.rest <:+ s.before.rest := readChar?_suffix s.read

theorem length_first_lt (s : Stretch) : s.first.rest.length < s.before.rest.length :=
  length_readChar? s.read

theorem after_suffix (s : Stretch) : s.after.rest <:+ s.before.rest := Lexer.step_suffix s.read

/-- A character that is not written by its code is the one that stands next. -/
theorem eq_cons_of_not_isCoded (h : ¬ s.IsCoded) : s.before.rest = s.first.char :: s.first.rest := by
  rcases readChar?_cases s.read with hplain | ⟨c, pair, decoded, hchars, -, hdecoded, -, hrest⟩
  · exact hplain
  · have hlt := length_decodePair? hdecoded
    have htail : s.first.rest = c :: pair := by
      have := Decidable.not_not.1 h
      rwa [hchars] at this
    rw [hrest] at htail
    rw [htail, List.length_cons] at hlt
    omega

/-- A code is a superscript that stands twice, and what it writes. -/
theorem eq_cons_cons_of_isCoded (h : s.IsCoded) :
    ∃ c pair decoded, s.before.rest = c :: c :: pair ∧ s.code c = .superscript ∧
      decodePair? pair = some decoded ∧ s.first.char = decoded.char ∧
      s.first.rest = decoded.rest := by
  rcases readChar?_cases s.read with hplain | hcoded
  · exact absurd (by rw [hplain]; rfl) h
  · exact hcoded

/-- The end of a line that stands next is all that is skipped. -/
theorem rest_after_of_lineEnd (hline : s.TakesLine)
    (hend : s.before.rest.head?.any isLineEnd = true) :
    s.after.rest = (afterLineEnd s.before.rest).1 := by
  have h : s.after.rest = (skipLine s.before.rest s.first.rest s.first.width).1 :=
    Lexer.rest_step_of_line hline
  rw [h, skipLine, if_pos hend]

/-- **A stretch that turns back goes on behind the first character of the code.** -/
theorem rest_after_of_turnsBack (h : s.TurnsBack) : s.after.rest = s.before.rest.tail := by
  obtain ⟨hline, hcoded, hend⟩ := h
  obtain ⟨c, pair, decoded, hchars, -⟩ := eq_cons_cons_of_isCoded hcoded
  rw [rest_after_of_lineEnd hline hend, hchars, afterLineEnd_twice]
  rfl

/-- Any other stretch goes on behind its first character, or farther. -/
theorem after_suffix_first (h : ¬ s.TurnsBack) : s.after.rest <:+ s.first.rest := by
  by_cases hline : s.TakesLine
  · by_cases hend : s.before.rest.head?.any isLineEnd = true
    · have hplain := eq_cons_of_not_isCoded fun hcoded => h ⟨hline, hcoded, hend⟩
      rw [rest_after_of_lineEnd hline hend, hplain]
      obtain ⟨ended, -, hended⟩ := afterLineEnd_cons s.first.char s.first.rest
      exact ⟨ended, hended⟩
    · have hrest : s.after.rest = (skipLine s.before.rest s.first.rest s.first.width).1 :=
        Lexer.rest_step_of_line hline
      rw [hrest, skipLine, if_neg hend]
      exact (afterLineEnd_suffix _).trans (List.dropWhile_suffix _)
  · obtain ⟨hend, hcomment⟩ := not_or.1 hline
    exact Lexer.rest_step_of_not_line hend hcomment

/-- A stretch that turns back leaves more than there was behind its first character. -/
theorem length_first_lt_after (h : s.TurnsBack) : s.first.rest.length < s.after.rest.length := by
  have hlt := s.length_first_lt
  obtain ⟨c, pair, decoded, hchars, -, hdecoded, -, hrest⟩ := eq_cons_cons_of_isCoded h.2.1
  have hpair := length_decodePair? hdecoded
  rw [rest_after_of_turnsBack h, hrest, hchars]
  simp only [List.tail_cons, List.length_cons]
  omega

/-- Where the end of a line is no superscript, nothing turns back. -/
theorem not_turnsBack (hfeed : s.code '\n' ≠ .superscript) (hreturn : s.code '\r' ≠ .superscript) :
    ¬ s.TurnsBack := by
  rintro ⟨-, hcoded, hend⟩
  obtain ⟨c, pair, decoded, hchars, hsup, -⟩ := eq_cons_cons_of_isCoded hcoded
  rw [hchars] at hend
  rcases Bool.or_eq_true_iff.1 hend with hc | hc
  · exact hreturn (of_decide_eq_true hc ▸ hsup)
  · exact hfeed (of_decide_eq_true hc ▸ hsup)

/-- **Only where it turns back does a lexer go behind what it has read.** -/
theorem after_suffix_first_iff (s : Stretch) : s.after.rest <:+ s.first.rest ↔ ¬ s.TurnsBack := by
  refine ⟨fun hsuffix hback => ?_, after_suffix_first⟩
  have hle := hsuffix.length_le
  have hlt := length_first_lt_after hback
  omega

/-- What contributes to a stretch, and what is left behind it, is what there was. -/
theorem text_append (h : ¬ s.TurnsBack) : s.text ++ s.after.rest = s.before.rest := by
  have hle := (after_suffix_first h).length_le
  rw [text, Nat.min_eq_right hle]
  exact (List.suffix_iff_eq_append.1 s.after_suffix).symm ▸ rfl

/-- What a stretch takes and what it leaves is no less than there was, and more if it turns back. -/
theorem length_text (s : Stretch) :
    s.before.rest.length ≤ s.text.length + s.after.rest.length ∧
      (s.TurnsBack → s.before.rest.length < s.text.length + s.after.rest.length) := by
  have hlength : s.text.length =
      s.before.rest.length - min s.first.rest.length s.after.rest.length := by
    rw [text, List.length_take]
    omega
  have hfirst := s.length_first_lt
  refine ⟨by omega, fun h => ?_⟩
  have hlt := length_first_lt_after h
  omega

/-! ### Positions and slices -/

theorem byteSize_le_of_suffix {a b : List Char} (h : a <:+ b) : byteSize a ≤ byteSize b := by
  obtain ⟨before, rfl⟩ := h
  rw [byteSize_append]
  exact Nat.le_add_left _ _

theorem byteSize_lt_of_suffix {a b : List Char} (h : a <:+ b) (hlt : a.length < b.length) :
    byteSize a < byteSize b := by
  obtain ⟨before, rfl⟩ := h
  cases before with
  | nil => simp at hlt
  | cons c rest =>
    have hc := c.utf8Size_pos
    simp only [List.cons_append, byteSize_cons, byteSize_append]
    omega

/-- A part that is left of a text is a slice of it, as wide as the bytes say. -/
theorem exists_slice {rest chars : List Char} {width : Nat} (h : rest <:+ chars)
    (hwidth : width + byteSize rest = byteSize chars) :
    ∃ done, done ++ rest = chars ∧ width = byteSize done := by
  obtain ⟨done, rfl⟩ := h
  refine ⟨done, rfl, ?_⟩
  rw [byteSize_append] at hwidth
  omega

/-- The first character takes a slice of the source, at least one character of it. -/
theorem exists_first (s : Stretch) :
    ∃ done ≠ [], done ++ s.first.rest = s.before.rest ∧ s.first.width = byteSize done := by
  obtain ⟨hpos, hwidth⟩ := byteSize_readChar? s.read
  obtain ⟨done, hdone, hsize⟩ := exists_slice s.first_suffix hwidth
  refine ⟨done, ?_, hdone, hsize⟩
  rintro rfl
  rw [hsize] at hpos
  exact Nat.lt_irrefl _ hpos

/-- A stretch leads from one boundary of characters to another. -/
theorem liesIn_after {content : List Char} (h : s.before.LiesIn content) :
    s.after.LiesIn content := by
  obtain ⟨done, hdone, hoffset⟩ := h
  have hpasses := (Lexer.advances_step s.read).toPasses
  obtain ⟨gone, hgone⟩ := s.after_suffix
  refine ⟨done ++ gone, ?_, ?_⟩
  · rw [List.append_assoc, hgone, hdone]
  · have hbytes : s.after.offset + byteSize s.after.rest = s.before.offset + byteSize s.before.rest :=
      hpasses.bytes
    rw [← hgone, byteSize_append] at hbytes
    rw [byteSize_append]
    omega

/-- The line ends before the first character does exactly if the lexer turns back. -/
theorem width_lt_iff (hline : s.TakesLine) :
    (skipLine s.before.rest s.first.rest s.first.width).2 < s.first.width ↔ s.TurnsBack := by
  obtain ⟨hpos, hwidth⟩ := byteSize_readChar? s.read
  obtain ⟨-, hskip⟩ := byteSize_skipLine hpos hwidth
  have hrest : s.after.rest = (skipLine s.before.rest s.first.rest s.first.width).1 :=
    Lexer.rest_step_of_line hline
  rw [← hrest] at hskip
  by_cases hback : s.TurnsBack
  · have hlt := length_first_lt_after hback
    have hsuffix := List.suffix_of_suffix_length_le s.first_suffix s.after_suffix (Nat.le_of_lt hlt)
    have := byteSize_lt_of_suffix hsuffix hlt
    exact iff_of_true (by omega) hback
  · have := byteSize_le_of_suffix (after_suffix_first hback)
    exact iff_of_false (by omega) hback

/-- **A slice that ends before it begins is asked for exactly where a comment turns back** and its text
is to be kept. -/
theorem outcome_eq_reversedComment_iff (s : Stretch) :
    s.outcome = .fail .reversedComment ↔
      s.TurnsBack ∧ s.code s.first.char = .comment ∧ s.before.retain = true := by
  by_cases hcomment : s.code s.first.char = .comment
  · rw [← width_lt_iff (.inr hcomment), outcome, Lexer.step_of_comment hcomment]
    by_cases hwidth : (skipLine s.before.rest s.first.rest s.first.width).2 < s.first.width
    · cases s.before.retain <;> simp [hwidth, hcomment]
    · cases s.before.retain <;> simp [hwidth]
  · refine iff_of_false ?_ fun h => hcomment h.2.1
    exact (Lexer.step_of_ne_comment hcomment).1

/-- Only a comment whose text is kept changes the comments. -/
theorem comments_after (s : Stretch) :
    s.after.comments = s.before.comments ∨
      s.code s.first.char = .comment ∧ ¬ s.TurnsBack ∧
        s.after.comments =
          ⟨Lexer.commentText s.before.rest s.first.rest, s.before.keys.keyAt s.before.offset⟩ ::
            s.before.comments := by
  by_cases hcomment : s.code s.first.char = .comment
  · rw [← width_lt_iff (.inr hcomment), after, Lexer.step_of_comment hcomment]
    split
    · split
      · exact .inl rfl
      case isFalse hwidth => exact .inr ⟨hcomment, hwidth, rfl⟩
    · exact .inl rfl
  · exact .inl (Lexer.step_of_ne_comment hcomment).2

/-- **The text of a comment is a slice**: what follows the comment character, up to the end of its
line. -/
theorem exists_commentText {c : Comment} (h : s.after.comments = c :: s.before.comments) :
    ∃ ended, (∀ x ∈ ended, isLineEnd x = true) ∧
      s.first.rest = c.text.toList ++ (ended ++ s.after.rest) := by
  rcases s.comments_after with hsame | ⟨hcomment, hback, hkept⟩
  · rw [hsame] at h
    exact absurd (congrArg List.length h) (by simp)
  · rw [h] at hkept
    obtain rfl := (List.cons.inj hkept).1
    have hrest : s.after.rest = (skipLine s.before.rest s.first.rest s.first.width).1 :=
      Lexer.rest_step_of_line (.inr hcomment)
    rw [hrest]
    unfold Lexer.commentText skipLine
    by_cases hend : s.before.rest.head?.any isLineEnd = true
    · -- the comment character ends its line itself
      have hplain := eq_cons_of_not_isCoded fun hcoded => hback ⟨.inr hcomment, hcoded, hend⟩
      obtain ⟨ended, hended, happend⟩ := afterLineEnd_cons s.first.char s.first.rest
      rw [if_pos hend, if_pos hend, hplain]
      exact ⟨ended, hended, happend.symm⟩
    · rw [if_neg hend, if_neg hend]
      dsimp only
      rw [String.toList_ofList]
      have hwhole := List.takeWhile_append_dropWhile (p := (!isLineEnd ·)) (l := s.first.rest)
      cases hdrop : s.first.rest.dropWhile (!isLineEnd ·) with
      | nil =>
        rw [hdrop] at hwhole
        exact ⟨[], by simp, hwhole.symm⟩
      | cons x rest =>
        have hx := List.head?_dropWhile_not (!isLineEnd ·) s.first.rest
        obtain ⟨ended, hended, happend⟩ := afterLineEnd_cons x rest
        rw [hdrop] at hx hwhole
        refine ⟨x :: ended, List.forall_mem_cons.2 ⟨by simpa using hx, hended⟩, ?_⟩
        rw [List.cons_append, happend, hwhole]

end Stretch

namespace Lexer

/-! ### The stretches of a call -/

/-- What a call gives that ends with the outcome. -/
def Outcome.result : Outcome → Except LexError (Option Token)
  | .token t => .ok (some t)
  | .skip => .ok none
  | .fail e => .error e

/-- The stretches that a call reads. -/
def stretches (lx : Lexer) (code : Char → CatCode) : List Stretch :=
  match hr : readChar? code lx.rest with
  | none => []
  | some r =>
    match hs : lx.step code r with
    | (.skip, lx') =>
      have : lx'.rest.length < lx.rest.length := length_step hr hs
      ⟨lx, code, r, hr⟩ :: stretches lx' code
    | (.token _, _) | (.fail _, _) => [⟨lx, code, r, hr⟩]
termination_by lx.rest.length

/-- The stretches of calls that are made one after the other, each with categories of its own. -/
def stretchesOf : List (Char → CatCode) → Lexer → List Stretch
  | [], _ => []
  | code :: codes, lx => lx.stretches code ++ stretchesOf codes (lx.next code).2

/-- The lexer after the calls. -/
def afterCalls : List (Char → CatCode) → Lexer → Lexer
  | [], lx => lx
  | code :: codes, lx => afterCalls codes (lx.next code).2

/-- The stretches begin at one lexer, each where the one before it ends, and lead to another one. -/
inductive Leads : Lexer → List Stretch → Lexer → Prop where
  | nil {lx : Lexer} : Leads lx [] lx
  | cons {s : Stretch} {ss : List Stretch} {lx' : Lexer} (h : Leads s.after ss lx') :
      Leads s.before (s :: ss) lx'

namespace Leads

variable {lx lx' lx'' : Lexer} {ss ss' : List Stretch}

theorem of_step {code : Char → CatCode} {r : ReadChar} {o : Outcome}
    (hr : readChar? code lx.rest = some r) (hs : lx.step code r = (o, lx')) (h : Leads lx' ss lx'') :
    Leads lx (⟨lx, code, r, hr⟩ :: ss) lx'' := by
  let s : Stretch := ⟨lx, code, r, hr⟩
  have hafter : s.after = lx' := congrArg Prod.snd hs
  rw [← hafter] at h
  have hleads : Leads s.before (s :: ss) lx'' := .cons h
  exact hleads

theorem append (h : Leads lx ss lx') (h' : Leads lx' ss' lx'') : Leads lx (ss ++ ss') lx'' := by
  induction h with
  | nil => exact h'
  | cons _ ih => exact .cons (ih h')

/-- Stretches lead from one boundary of characters to another. -/
theorem liesIn {content : List Char} (h : Leads lx ss lx') (hlx : lx.LiesIn content) :
    lx'.LiesIn content ∧ ∀ s ∈ ss, s.before.LiesIn content ∧ s.after.LiesIn content := by
  induction h with
  | nil => exact ⟨hlx, fun s hs => nomatch hs⟩
  | @cons s ss lx' _ ih =>
    have hafter := Stretch.liesIn_after hlx
    obtain ⟨hend, hall⟩ := ih hafter
    refine ⟨hend, fun s' hs' => ?_⟩
    rcases List.mem_cons.1 hs' with rfl | hs'
    · exact ⟨hlx, hafter⟩
    · exact hall s' hs'

/-- What stretches take and what they leave is no less than there was, and more if one turns back. -/
theorem length_text (h : Leads lx ss lx') :
    lx.rest.length ≤ (ss.map Stretch.text).flatten.length + lx'.rest.length ∧
      ((∃ s ∈ ss, s.TurnsBack) →
        lx.rest.length < (ss.map Stretch.text).flatten.length + lx'.rest.length) := by
  induction h with
  | nil => simp
  | @cons s ss lx' _ ih =>
    obtain ⟨hle, hlt⟩ := ih
    obtain ⟨hle', hlt'⟩ := s.length_text
    rw [List.map_cons, List.flatten_cons, List.length_append]
    refine ⟨by omega, ?_⟩
    rintro ⟨s', hs', hback⟩
    rcases List.mem_cons.1 hs' with rfl | hs'
    · have := hlt' hback
      omega
    · have := hlt ⟨s', hs', hback⟩
      omega

/-- **Stretches divide what they go over between them exactly if none of them turns back.** -/
theorem flatten_text_iff (h : Leads lx ss lx') :
    (ss.map Stretch.text).flatten ++ lx'.rest = lx.rest ↔ ∀ s ∈ ss, ¬ s.TurnsBack := by
  constructor
  · intro heq s hs hback
    have hlt := h.length_text.2 ⟨s, hs, hback⟩
    rw [← heq, List.length_append] at hlt
    exact Nat.lt_irrefl _ hlt
  · intro hnone
    induction h with
    | nil => rfl
    | @cons s ss lx' _ ih =>
      have hrest := ih fun s' hs' => hnone s' (List.mem_cons_of_mem _ hs')
      rw [List.map_cons, List.flatten_cons, List.append_assoc, hrest]
      exact Stretch.text_append (hnone s List.mem_cons_self)

end Leads

/-- The stretches of a call lead to where it ends. -/
theorem leads_stretches (lx : Lexer) (code : Char → CatCode) :
    Leads lx (lx.stretches code) (lx.next code).2 := by
  fun_induction stretches lx code with
  | case1 lx hr =>
    rw [next_of_none hr]
    exact .nil
  | case2 lx r hr lx' hs hlt ih =>
    rw [next_of_skip hr hs]
    exact .of_step hr hs ih
  | case3 lx r hr t lx' hs =>
    rw [next_of_token hr hs]
    exact .of_step hr hs .nil
  | case4 lx r hr e lx' hs =>
    rw [next_of_fail hr hs]
    exact .of_step hr hs .nil

/-- The last stretch of a call gives its result, and the ones before it give nothing. -/
theorem result_next (lx : Lexer) (code : Char → CatCode) :
    (lx.next code).1 = ((lx.stretches code).getLast?.elim (.ok none) fun s => s.outcome.result) ∧
      ∀ s ∈ (lx.stretches code).dropLast, s.outcome = .skip := by
  fun_induction stretches lx code with
  | case1 lx hr => exact ⟨by rw [next_of_none hr]; rfl, fun s hs => nomatch hs⟩
  | case2 lx r hr lx' hs hlt ih =>
    rw [next_of_skip hr hs]
    obtain ⟨hresult, hskip⟩ := ih
    have houtcome : (⟨lx, code, r, hr⟩ : Stretch).outcome = .skip := congrArg Prod.fst hs
    cases hrest : lx'.stretches code with
    | nil =>
      rw [hrest] at hresult
      exact ⟨by rw [hresult]; simp [houtcome, Outcome.result], fun s hs => nomatch hs⟩
    | cons s ss =>
      rw [hrest] at hresult hskip
      rw [hresult]
      refine ⟨rfl, fun s' hs' => ?_⟩
      rcases List.mem_cons.1 hs' with rfl | hs'
      · exact houtcome
      · exact hskip s' hs'
  | case3 lx r hr t lx' hs =>
    have houtcome : (⟨lx, code, r, hr⟩ : Stretch).outcome = .token t := congrArg Prod.fst hs
    rw [next_of_token hr hs]
    exact ⟨by simp [houtcome, Outcome.result], fun s hs => nomatch hs⟩
  | case4 lx r hr e lx' hs =>
    have houtcome : (⟨lx, code, r, hr⟩ : Stretch).outcome = .fail e := congrArg Prod.fst hs
    rw [next_of_fail hr hs]
    exact ⟨by simp [houtcome, Outcome.result], fun s hs => nomatch hs⟩

/-- A call begins with the character that stands next. -/
theorem mem_stretches {lx : Lexer} {code : Char → CatCode} {r : ReadChar}
    (hr : readChar? code lx.rest = some r) : ⟨lx, code, r, hr⟩ ∈ lx.stretches code := by
  rw [stretches]
  split
  case h_1 hnone => cases hnone.symm.trans hr
  case h_2 r' hr' =>
    obtain rfl := Option.some.inj (hr'.symm.trans hr)
    split <;> exact List.mem_cons_self

theorem code_of_mem_stretches {lx : Lexer} {code : Char → CatCode} {s : Stretch}
    (hs : s ∈ lx.stretches code) : s.code = code := by
  fun_induction stretches lx code with
  | case1 => exact nomatch hs
  | case2 lx r hr lx' hstep hlt ih =>
    rcases List.mem_cons.1 hs with rfl | hs
    · rfl
    · exact ih hs
  | case3 =>
    obtain rfl := List.mem_singleton.1 hs
    rfl
  | case4 =>
    obtain rfl := List.mem_singleton.1 hs
    rfl

theorem code_of_mem_stretchesOf {codes : List (Char → CatCode)} {lx : Lexer} {s : Stretch}
    (hs : s ∈ stretchesOf codes lx) : s.code ∈ codes := by
  induction codes generalizing lx with
  | nil => exact nomatch hs
  | cons code codes ih =>
    rcases List.mem_append.1 hs with hs | hs
    · rw [code_of_mem_stretches hs]
      exact List.mem_cons_self
    · exact List.mem_cons_of_mem _ (ih hs)

theorem leads_stretchesOf (codes : List (Char → CatCode)) (lx : Lexer) :
    Leads lx (stretchesOf codes lx) (afterCalls codes lx) := by
  induction codes generalizing lx with
  | nil => exact .nil
  | cons code codes ih => exact (lx.leads_stretches code).append (ih _)

/-- **A lexer reads its source in stretches.** Whatever the source is, and with whatever categories each
call is made: every stretch begins and ends between two characters, takes its first character off what was
left, and goes on behind it unless it turns back, which leads behind the first character of a code; the
text of a comment is a slice of the source, and only that of a comment that turns back would end before
it begins; and the stretches divide what they go over between them, so that no character contributes to
two of them, exactly if none of them turns back. -/
theorem reads_in_stretches (content : List Char) (keys : KeyRange) (retain : Bool)
    (codes : List (Char → CatCode)) :
    (∀ s ∈ stretchesOf codes (start content keys retain),
      (s.before.LiesIn content ∧ s.after.LiesIn content) ∧
      (∃ done ≠ [], done ++ s.first.rest = s.before.rest ∧ s.first.width = byteSize done) ∧
      (s.after.rest <:+ s.first.rest ↔ ¬ s.TurnsBack) ∧
      (s.TurnsBack → s.after.rest = s.before.rest.tail) ∧
      (∀ c, s.after.comments = c :: s.before.comments →
        ∃ ended, (∀ x ∈ ended, isLineEnd x = true) ∧
          s.first.rest = c.text.toList ++ (ended ++ s.after.rest)) ∧
      (s.outcome = .fail .reversedComment ↔
        s.TurnsBack ∧ s.code s.first.char = .comment ∧ s.before.retain = true)) ∧
    (afterCalls codes (start content keys retain)).LiesIn content ∧
    (((stretchesOf codes (start content keys retain)).map Stretch.text).flatten ++
        (afterCalls codes (start content keys retain)).rest = content ↔
      ∀ s ∈ stretchesOf codes (start content keys retain), ¬ s.TurnsBack) := by
  have hleads := leads_stretchesOf codes (start content keys retain)
  have hstart : (start content keys retain).LiesIn content := ⟨[], rfl, rfl⟩
  obtain ⟨hend, hall⟩ := hleads.liesIn hstart
  refine ⟨fun s hs => ⟨hall s hs, s.exists_first, s.after_suffix_first_iff,
    Stretch.rest_after_of_turnsBack, fun c hc => Stretch.exists_commentText hc,
    s.outcome_eq_reversedComment_iff⟩, hend, hleads.flatten_text_iff⟩

/-- The second of two line feeds, and the letter after it, are read again when line feeds are superscripts:
they are the code of a comment character, and the comment ends with the first line feed. -/
theorem reads_twice :
    let code : Char → CatCode :=
      fun c => if c = '\n' then .superscript else if c = '%' then .comment else .letter
    let lx := start ['\n', '\n', 'e', 'x'] .empty false
    ((stretchesOf [code] lx).map Stretch.text).flatten ++ (afterCalls [code] lx).rest ≠
      ['\n', '\n', 'e', 'x'] := by
  intro code lx honce
  have hr : readChar? code lx.rest = some ⟨'%', ['x'], 3⟩ := rfl
  have hmem : ⟨lx, code, _, hr⟩ ∈ stretchesOf [code] lx :=
    List.mem_append_left _ (mem_stretches hr)
  have hcoded : ['x'] ≠ ['\n', 'e', 'x'] := by decide
  exact (reads_in_stretches ['\n', '\n', 'e', 'x'] .empty false [code]).2.2.1 honce _ hmem
    ⟨.inr rfl, hcoded, rfl⟩

/-- As long as the end of a line is no superscript, no character is read twice. -/
theorem reads_once (content : List Char) (keys : KeyRange) (retain : Bool)
    {codes : List (Char → CatCode)}
    (h : ∀ code ∈ codes, code '\n' ≠ .superscript ∧ code '\r' ≠ .superscript) :
    ((stretchesOf codes (start content keys retain)).map Stretch.text).flatten ++
      (afterCalls codes (start content keys retain)).rest = content := by
  refine (leads_stretchesOf codes _).flatten_text_iff.2 fun s hs hback => ?_
  obtain ⟨hfeed, hreturn⟩ := h s.code (code_of_mem_stretchesOf hs)
  exact Stretch.not_turnsBack hfeed hreturn hback

end Lexer

end Gullet
