import Gullet.Lexer

/-!
# The bytes that a lexer reads

A lexer keeps count of the bytes that it has read. Here it is shown that the count is right: what has
been read together with what is still to be read is the whole source. Every token takes at least one
byte, so a source gives at most as many tokens as it has bytes. What is left is always the end of what
there was, so the count stands between two characters.
-/

namespace Gullet

/-! ### Reading characters -/

theorem byteSize_decodePair? {chars : List Char} {r : ReadChar} (h : decodePair? chars = some r) :
    r.width + byteSize r.rest = byteSize chars := by
  cases chars with
  | nil => cases h
  | cons third rest =>
    unfold decodePair? at h
    cases rest with
    | nil =>
      dsimp only at h
      split at h
      · obtain rfl := Option.some.inj h
        rfl
      · cases h
    | cons fourth rest =>
      dsimp only at h
      split at h
      · obtain rfl := Option.some.inj h
        simp [Nat.add_assoc]
      · split at h
        · obtain rfl := Option.some.inj h
          rfl
        · cases h

/-- A character that has been read and what follows it are the whole text. -/
theorem byteSize_readChar? {code : Char → CatCode} {chars : List Char} {r : ReadChar}
    (h : readChar? code chars = some r) :
    0 < r.width ∧ r.width + byteSize r.rest = byteSize chars := by
  cases chars with
  | nil => cases h
  | cons c rest =>
    have hc := c.utf8Size_pos
    have hplain {r : ReadChar} (h : some (ReadChar.mk c rest c.utf8Size) = some r) :
        0 < r.width ∧ r.width + byteSize r.rest = byteSize (c :: rest) := by
      obtain rfl := Option.some.inj h
      exact ⟨hc, rfl⟩
    unfold readChar? at h
    dsimp only at h
    split at h
    · exact hplain h
    · split at h
      · exact hplain h
      · split at h
        · exact hplain h
        case isFalse second rest hsecond =>
          split at h
          · exact hplain h
          case h_2 r' hr' =>
            have hpair := byteSize_decodePair? hr'
            obtain rfl := Option.some.inj h
            obtain rfl : second = c := by simpa using hsecond
            simp only [byteSize_cons]
            omega

/-- Where no character can be read, there is none. -/
theorem eq_nil_of_readChar?_eq_none {code : Char → CatCode} {chars : List Char}
    (h : readChar? code chars = none) : chars = [] := by
  cases chars with
  | nil => rfl
  | cons c rest =>
    unfold readChar? at h
    grind

theorem byteSize_takeLetters (code : Char → CatCode) (chars : List Char) :
    (takeLetters code chars).2.2 + byteSize (takeLetters code chars).2.1 = byteSize chars := by
  fun_induction takeLetters code chars with
  | case1 => simp
  | case2 chars r hr hcode hlt letters rest width heq ih =>
    have hchar := byteSize_readChar? hr
    rw [heq] at ih
    simp only at ih ⊢
    omega
  | case3 => simp

theorem utf8Size_of_isLineEnd {c : Char} (h : isLineEnd c = true) : c.utf8Size = 1 := by
  simp only [isLineEnd, Bool.or_eq_true, decide_eq_true_eq] at h
  rcases h with rfl | rfl <;> rfl

theorem byteSize_afterLineEnd {chars : List Char} (h : ∀ c ∈ chars.head?, isLineEnd c = true) :
    (afterLineEnd chars).2 + byteSize (afterLineEnd chars).1 = byteSize chars := by
  unfold afterLineEnd
  split
  case h_1 after =>
    show 2 + byteSize after = 1 + (1 + byteSize after)
    omega
  case h_2 c after hne =>
    rw [byteSize_cons, utf8Size_of_isLineEnd (h c (by simp))]
  · rfl

/-- What is skipped of a line and what follows are the whole text, and at least one byte is skipped. -/
theorem byteSize_skipLine {start rest : List Char} {width : Nat} (hpos : 0 < width)
    (h : width + byteSize rest = byteSize start) :
    0 < (skipLine start rest width).2 ∧
      (skipLine start rest width).2 + byteSize (skipLine start rest width).1 = byteSize start := by
  unfold skipLine
  split
  case isTrue hend =>
    have hhead : ∀ c ∈ start.head?, isLineEnd c = true := by
      intro c hc
      simpa [Option.mem_def.1 hc] using hend
    refine ⟨?_, byteSize_afterLineEnd hhead⟩
    cases start with
    | nil => simp at hend
    | cons c after => unfold afterLineEnd; split <;> simp_all
  case isFalse hend =>
    have hhead : ∀ c ∈ (rest.dropWhile (!isLineEnd ·)).head?, isLineEnd c = true := by
      intro c hc
      have hnot := List.head?_dropWhile_not (!isLineEnd ·) rest
      rw [Option.mem_def.1 hc] at hnot
      simpa using hnot
    have hafter := byteSize_afterLineEnd hhead
    have hwhole := congrArg byteSize (List.takeWhile_append_dropWhile (p := (!isLineEnd ·)) (l := rest))
    rw [byteSize_append] at hwhole
    dsimp only
    omega

/-! ### What is left of a text -/

/-- A character stands for itself, or it is written by its code behind a doubled superscript. -/
theorem readChar?_cases {code : Char → CatCode} {chars : List Char} {r : ReadChar}
    (h : readChar? code chars = some r) :
    chars = r.char :: r.rest ∨
      ∃ c pair decoded, chars = c :: c :: pair ∧ code c = .superscript ∧
        decodePair? pair = some decoded ∧ r.char = decoded.char ∧ r.rest = decoded.rest := by
  cases chars with
  | nil => cases h
  | cons c rest =>
    have hplain {r : ReadChar} (h : some (ReadChar.mk c rest c.utf8Size) = some r) :
        c :: rest = r.char :: r.rest := by
      obtain rfl := Option.some.inj h
      rfl
    unfold readChar? at h
    dsimp only at h
    split at h
    · exact .inl (hplain h)
    case isFalse hsup =>
      split at h
      · exact .inl (hplain h)
      case h_2 second rest' =>
        split at h
        · exact .inl (hplain h)
        case isFalse hsecond =>
          split at h
          · exact .inl (hplain h)
          case h_2 decoded hdecoded =>
            obtain rfl := Option.some.inj h
            obtain rfl : second = c := by simpa using hsecond
            exact .inr ⟨second, rest', decoded, rfl, by simpa using hsup, hdecoded, rfl, rfl⟩

theorem decodePair?_suffix {chars : List Char} {r : ReadChar} (h : decodePair? chars = some r) :
    r.rest <:+ chars := by
  cases chars with
  | nil => cases h
  | cons third rest =>
    have hrest : rest <:+ third :: rest := List.suffix_cons _ _
    unfold decodePair? at h
    cases rest with
    | nil =>
      dsimp only at h
      split at h
      · obtain rfl := Option.some.inj h
        exact hrest
      · cases h
    | cons fourth rest =>
      dsimp only at h
      split at h
      · obtain rfl := Option.some.inj h
        exact (List.suffix_cons _ _).trans hrest
      · split at h
        · obtain rfl := Option.some.inj h
          exact hrest
        · cases h

theorem readChar?_suffix {code : Char → CatCode} {chars : List Char} {r : ReadChar}
    (h : readChar? code chars = some r) : r.rest <:+ chars := by
  rcases readChar?_cases h with hchars | ⟨c, pair, decoded, hchars, -, hdecoded, -, hrest⟩
  · exact ⟨[r.char], hchars.symm⟩
  · rw [hrest, hchars]
    exact (decodePair?_suffix hdecoded).trans ⟨[c, c], rfl⟩

theorem takeLetters_suffix (code : Char → CatCode) (chars : List Char) :
    (takeLetters code chars).2.1 <:+ chars := by
  fun_induction takeLetters code chars with
  | case1 => exact List.suffix_refl _
  | case2 chars r hr hcode hlt letters rest width heq ih =>
    rw [heq] at ih
    exact ih.trans (readChar?_suffix hr)
  | case3 => exact List.suffix_refl _

theorem afterLineEnd_suffix (chars : List Char) : (afterLineEnd chars).1 <:+ chars := by
  unfold afterLineEnd
  split
  · exact ⟨['\r', '\n'], rfl⟩
  · exact List.suffix_cons _ _
  · exact List.suffix_refl _

theorem skipLine_suffix {start rest : List Char} (h : rest <:+ start) (width : Nat) :
    (skipLine start rest width).1 <:+ start := by
  unfold skipLine
  split
  · exact afterLineEnd_suffix start
  · exact (afterLineEnd_suffix _).trans ((List.dropWhile_suffix _).trans h)

namespace Lexer

/-- Where a lexer can get in its source: no byte is lost or read twice. -/
structure Passes (lx lx' : Lexer) : Prop where
  keys : lx'.keys = lx.keys
  size : lx'.size = lx.size
  offset : lx.offset ≤ lx'.offset
  bytes : lx'.offset + byteSize lx'.rest = lx.offset + byteSize lx.rest

namespace Passes

variable {lx lx' lx'' : Lexer}

theorem refl (lx : Lexer) : lx.Passes lx := ⟨rfl, rfl, Nat.le_refl _, rfl⟩

theorem trans (h : lx.Passes lx') (h' : lx'.Passes lx'') : lx.Passes lx'' :=
  ⟨h'.keys.trans h.keys, h'.size.trans h.size, Nat.le_trans h.offset h'.offset, h'.bytes.trans h.bytes⟩

theorem moveTo {rest : List Char} {width : Nat} (h : width + byteSize rest = byteSize lx.rest) :
    lx.Passes (lx.moveTo rest width) where
  keys := rfl
  size := rfl
  offset := Nat.le_add_right _ _
  bytes := by
    simp only [Lexer.moveTo]
    omega

end Passes

/-- Where a lexer gets by reading at least one byte. -/
structure Advances (lx lx' : Lexer) : Prop extends lx.Passes lx' where
  strict : lx.offset < lx'.offset

variable {lx lx' : Lexer}

theorem Advances.moveTo {rest : List Char} {width : Nat} (hpos : 0 < width)
    (h : width + byteSize rest = byteSize lx.rest) : lx.Advances (lx.moveTo rest width) :=
  ⟨.moveTo h, Nat.lt_add_of_pos_right hpos⟩

theorem Advances.trans_passes {lx'' : Lexer} (h : lx.Advances lx') (h' : lx'.Passes lx'') :
    lx.Advances lx'' :=
  ⟨h.toPasses.trans h', Nat.lt_of_lt_of_le h.strict h'.offset⟩

theorem passes_controlSequence (lx : Lexer) (code : Char → CatCode) (key : SourceKey) :
    lx.Passes (lx.controlSequence code key).2 := by
  unfold controlSequence
  split
  · exact .refl lx
  case h_2 first hfirst =>
    have hchar := (byteSize_readChar? hfirst).2
    have hmove : lx.Passes (lx.moveTo first.rest first.width) := .moveTo hchar
    split
    · have hletters := byteSize_takeLetters code first.rest
      have hmove : lx.Passes (lx.moveTo (takeLetters code first.rest).2.1
          (first.width + (takeLetters code first.rest).2.2)) := .moveTo (by omega)
      exact ⟨hmove.keys, hmove.size, hmove.offset, hmove.bytes⟩
    · exact ⟨hmove.keys, hmove.size, hmove.offset, hmove.bytes⟩
    · exact ⟨hmove.keys, hmove.size, hmove.offset, hmove.bytes⟩

/-- Handling a character takes at least its bytes. -/
theorem advances_step {code : Char → CatCode} {r : ReadChar} (hr : readChar? code lx.rest = some r) :
    lx.Advances (lx.step code r).2 := by
  obtain ⟨hpos, hchar⟩ := byteSize_readChar? hr
  have hnext : lx.Advances (lx.moveTo r.rest r.width) := .moveTo hpos hchar
  obtain ⟨hskipped, hline⟩ := byteSize_skipLine hpos hchar
  have hskip : lx.Advances (lx.moveTo (skipLine lx.rest r.rest r.width).1
      (skipLine lx.rest r.rest r.width).2) := .moveTo hskipped hline
  unfold step
  dsimp only
  split
  · -- an escape character, and the name after it
    have hname := passes_controlSequence (lx.moveTo r.rest r.width) code (lx.keys.keyAt lx.offset)
    split
    case h_1 hcs =>
      rw [hcs] at hname
      exact hnext.trans_passes hname
    case h_2 hcs =>
      rw [hcs] at hname
      exact hnext.trans_passes hname
  · split
    · exact ⟨⟨hnext.keys, hnext.size, hnext.offset, hnext.bytes⟩, hnext.strict⟩
    · exact hnext
  · split <;> exact ⟨⟨hskip.keys, hskip.size, hskip.offset, hskip.bytes⟩, hskip.strict⟩
  · split
    · split <;> exact ⟨⟨hskip.keys, hskip.size, hskip.offset, hskip.bytes⟩, hskip.strict⟩
    · exact ⟨⟨hskip.keys, hskip.size, hskip.offset, hskip.bytes⟩, hskip.strict⟩
  · exact hnext
  · exact hnext
  · split <;> exact ⟨⟨hnext.keys, hnext.size, hnext.offset, hnext.bytes⟩, hnext.strict⟩

theorem controlSequence_suffix (lx : Lexer) (code : Char → CatCode) (key : SourceKey) :
    (lx.controlSequence code key).2.rest <:+ lx.rest := by
  unfold controlSequence
  split
  · exact List.suffix_refl _
  case h_2 first hfirst =>
    have hrest := readChar?_suffix hfirst
    split
    · exact (takeLetters_suffix code first.rest).trans hrest
    · exact hrest
    · exact hrest

/-- The end of a line, or a comment, makes the lexer go on behind the line. -/
theorem rest_step_of_line {code : Char → CatCode} {r : ReadChar}
    (h : code r.char = .endOfLine ∨ code r.char = .comment) :
    (lx.step code r).2.rest = (skipLine lx.rest r.rest r.width).1 := by
  unfold step
  rcases h with h | h
  · rw [h]
    cases lx.state <;> rfl
  · rw [h]
    dsimp only
    split
    · split <;> rfl
    · rfl

/-- Any other character makes the lexer go on behind that character, or farther. -/
theorem rest_step_of_not_line {code : Char → CatCode} {r : ReadChar}
    (hend : code r.char ≠ .endOfLine) (hcomment : code r.char ≠ .comment) :
    (lx.step code r).2.rest <:+ r.rest := by
  have hname := (lx.moveTo r.rest r.width).controlSequence_suffix code (lx.keys.keyAt lx.offset)
  unfold step
  dsimp only
  split
  · split
    case h_1 hcs =>
      rw [hcs] at hname
      exact hname
    case h_2 hcs =>
      rw [hcs] at hname
      exact hname
  · split <;> exact List.suffix_refl _
  case h_3 h => exact absurd h hend
  case h_4 h => exact absurd h hcomment
  · exact List.suffix_refl _
  · exact List.suffix_refl _
  · split <;> exact List.suffix_refl _

/-- What a lexer leaves when it handles a character is the end of what it had. -/
theorem step_suffix {code : Char → CatCode} {r : ReadChar} (hr : readChar? code lx.rest = some r) :
    (lx.step code r).2.rest <:+ lx.rest := by
  have hrest := readChar?_suffix hr
  by_cases hline : code r.char = .endOfLine ∨ code r.char = .comment
  · rw [rest_step_of_line hline]
    exact skipLine_suffix hrest r.width
  · obtain ⟨hend, hcomment⟩ := not_or.1 hline
    exact (rest_step_of_not_line hend hcomment).trans hrest

/-! ### What a call gives -/

section

variable {code : Char → CatCode} {r : ReadChar} {t : Token} {e : LexError}

theorem next_of_none (hr : readChar? code lx.rest = none) : lx.next code = (.ok none, lx) := by
  rw [Lexer.next]
  split
  · rfl
  case h_2 r hr' => cases hr.symm.trans hr'

theorem next_of_end (h : lx.rest = []) : lx.next code = (.ok none, lx) := by
  refine next_of_none ?_
  rw [h]
  rfl

theorem next_of_token (hr : readChar? code lx.rest = some r) (hs : lx.step code r = (.token t, lx')) :
    lx.next code = (.ok (some t), lx') := by
  rw [Lexer.next]
  split <;> simp_all
  split <;> simp_all

theorem next_of_fail (hr : readChar? code lx.rest = some r) (hs : lx.step code r = (.fail e, lx')) :
    lx.next code = (.error e, lx') := by
  rw [Lexer.next]
  split <;> simp_all
  split <;> simp_all

theorem next_of_skip (hr : readChar? code lx.rest = some r) (hs : lx.step code r = (.skip, lx')) :
    lx.next code = lx'.next code := by
  rw [Lexer.next]
  split <;> simp_all
  split <;> simp_all

end

/-- **A token takes at least one byte**, and where there is none, all of the source has been read. -/
theorem passes_next (lx : Lexer) (code : Char → CatCode) :
    lx.Passes (lx.next code).2 ∧
      (∀ t, (lx.next code).1 = .ok (some t) → lx.offset < (lx.next code).2.offset) ∧
      ((lx.next code).1 = .ok none → (lx.next code).2.rest = []) := by
  fun_induction Lexer.next lx code with
  | case1 lx hr =>
    refine ⟨.refl lx, fun t ht => ?_, fun _ => ?_⟩
    · cases ht
    · exact eq_nil_of_readChar?_eq_none hr
  | case2 lx r hr t lx' hs =>
    have h := advances_step hr
    rw [hs] at h
    exact ⟨h.toPasses, fun _ _ => h.strict, fun ht => by cases ht⟩
  | case3 lx r hr e lx' hs =>
    have h := advances_step hr
    rw [hs] at h
    refine ⟨h.toPasses, fun t ht => ?_, fun ht => ?_⟩
    · cases ht
    · cases ht
  | case4 lx r hr lx' hs hlt ih =>
    have h := advances_step hr
    rw [hs] at h
    obtain ⟨hpasses, htoken, hnone⟩ := ih
    exact ⟨h.toPasses.trans hpasses, fun t ht => Nat.lt_trans h.strict (htoken t ht), hnone⟩

/-- The count of the bytes that have been read is right. -/
def Accounted (lx : Lexer) : Prop := lx.offset + byteSize lx.rest = lx.size

namespace Accounted

theorem start (content : List Char) (keys : KeyRange) (retain : Bool) :
    (start content keys retain).Accounted :=
  Nat.zero_add _

theorem discardRest (lx : Lexer) : lx.discardRest.Accounted := rfl

theorem passes (h : lx.Accounted) (hp : lx.Passes lx') : lx'.Accounted := by
  have hbytes := hp.bytes
  have hsize := hp.size
  unfold Accounted at h ⊢
  omega

theorem remaining (h : lx.Accounted) : lx.remaining = byteSize lx.rest := by
  unfold Accounted at h
  unfold Lexer.remaining
  omega

end Accounted

/-- A token leaves fewer bytes to be read, and where there is none, no byte is left. -/
theorem remaining_next (code : Char → CatCode) (h : lx.Accounted) :
    (lx.next code).2.remaining ≤ lx.remaining ∧
      (∀ t, (lx.next code).1 = .ok (some t) → (lx.next code).2.remaining < lx.remaining) ∧
      ((lx.next code).1 = .ok none → (lx.next code).2.remaining = 0) := by
  obtain ⟨hpasses, htoken, hend⟩ := lx.passes_next code
  have h' := h.passes hpasses
  have hsize := hpasses.size
  have hoffset := hpasses.offset
  unfold Accounted at h h'
  unfold remaining
  refine ⟨by omega, fun t ht => ?_, fun hnone => ?_⟩
  · have hlt := htoken t ht
    omega
  · rw [hend hnone, byteSize_nil] at h'
    omega

end Lexer

end Gullet
