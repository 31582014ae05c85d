import Gullet.CatCode.Table
import Gullet.Proofs.Lexer.Accounting
import Gullet.Token.Writer

/-!
# Reading what was written

Tokens that a lexer has read can be written, and are then read again as they were, although the layout of
the text is lost. What carries this is which token can follow which: after a space or a control word, and
at the start of a line, no space is read; and a letter that is written after a control word is set off from
it by a blank, which is skipped again.

All this is about the categories that characters have as long as none has been assigned, and about texts
without a character of category superscript.
-/

namespace Gullet

/-! ### The default categories -/

/-- The category of a character, as long as none has been assigned. -/
def CatCode.ofChar (c : Char) : CatCode := CatCode.Table.code ∅ c.toNat

/-- Letters are the alphabetic characters. -/
theorem CatCode.ofChar_eq_letter_iff (c : Char) :
    CatCode.ofChar c = .letter ↔ Text.isAlphabetic c = true := by
  have hofNat : Char.ofNat c.toNat = c := Char.ofNat_toNat c
  unfold CatCode.ofChar
  rw [CatCode.Table.code_empty]
  unfold CatCode.defaultFor
  by_cases hc : c.toNat < 128
  · rw [if_pos hc, hofNat, Text.isAlphabetic_of_lt hc]
    unfold CatCode.ofAscii
    split
    case h_17 => cases c.isAlpha <;> simp
    all_goals decide
  · have hvalid : c.toNat.isValidChar := c.valid
    rw [if_neg hc, hofNat]
    cases Text.isAlphabetic c <;> simp [hvalid]

/-- A value that is made of a character is a character token or an active character. -/
theorem TokenValue.eq_of_ofChar? {c : Char} {code : CatCode} {v : TokenValue}
    (h : TokenValue.ofChar? c code = some v) :
    (∃ category : CharCategory, category.code = code ∧ v = .char category c) ∨
      code = .active ∧ v = .command (.active c) := by
  cases code <;> cases h
  case active => exact .inr ⟨rfl, rfl⟩
  all_goals exact .inl ⟨_, rfl, rfl⟩

namespace Lexer

variable {code : Char → CatCode} {lx lx' : Lexer} {r : ReadChar} {t : Token}

/-! ### All tokens of a source -/

/-- The tokens up to the end of the source. -/
def tokenize (lx : Lexer) (code : Char → CatCode) : Except LexError (List Token) :=
  match h : lx.next code with
  | (.ok none, _) => .ok []
  | (.error e, _) => .error e
  | (.ok (some t), lx') =>
    have : byteSize lx'.rest < byteSize lx.rest := by
      obtain ⟨hpasses, htoken, -⟩ := lx.passes_next code
      rw [h] at hpasses htoken
      have hbytes : lx'.offset + byteSize lx'.rest = lx.offset + byteSize lx.rest := hpasses.bytes
      have hlt : lx.offset < lx'.offset := htoken t rfl
      omega
    (t :: ·) <$> tokenize lx' code
termination_by byteSize lx.rest

theorem tokenize_of_end (h : lx.next code = (.ok none, lx')) : lx.tokenize code = .ok [] := by
  rw [tokenize]
  split <;> simp_all

theorem tokenize_of_token (h : lx.next code = (.ok (some t), lx')) :
    lx.tokenize code = (t :: ·) <$> lx'.tokenize code := by
  rw [tokenize]
  split <;> simp_all

/-! ### What is left of a source -/

theorem readChar?_of_ne {c : Char} (hc : code c ≠ .superscript) (rest : List Char) :
    readChar? code (c :: rest) = some ⟨c, rest, c.utf8Size⟩ := by
  unfold readChar?
  exact if_pos hc

/-- In a text without superscripts a character is read as it stands. -/
theorem eq_cons_of_readChar? {chars : List Char} (hsup : ∀ c ∈ chars, code c ≠ .superscript)
    (hr : readChar? code chars = some r) : chars = r.char :: r.rest := by
  cases chars with
  | nil => cases hr
  | cons c rest =>
    rw [readChar?_of_ne (hsup c List.mem_cons_self)] at hr
    obtain rfl := Option.some.inj hr
    rfl

theorem takeLetters_spec {chars : List Char} (hsup : ∀ c ∈ chars, code c ≠ .superscript) :
    chars = (takeLetters code chars).1 ++ (takeLetters code chars).2.1 ∧
      ∀ c ∈ (takeLetters code chars).1, code c = .letter := by
  fun_induction takeLetters code chars with
  | case1 => simp
  | case2 chars r hr hcode hlt letters rest width heq ih =>
    have hchars := eq_cons_of_readChar? hsup hr
    have hrest : ∀ c ∈ r.rest, code c ≠ .superscript := by
      intro c hc
      exact hsup c (by rw [hchars]; exact List.mem_cons_of_mem _ hc)
    obtain ⟨happend, hletters⟩ := ih hrest
    rw [heq] at happend hletters
    constructor
    · rw [hchars, happend]
      rfl
    · intro c hc
      rcases List.mem_cons.1 hc with rfl | hc
      · exact hcode
      · exact hletters c hc
  | case3 => simp

theorem takeLetters_of_ne {c : Char} (hsup : code c ≠ .superscript) (hc : code c ≠ .letter)
    (rest : List Char) : takeLetters code (c :: rest) = ([], c :: rest, 0) := by
  rw [takeLetters]
  split
  case h_1 hnone => cases hnone.symm.trans (readChar?_of_ne hsup rest)
  case h_2 r hr =>
    obtain rfl := Option.some.inj ((readChar?_of_ne hsup rest).symm.trans hr)
    simp [hc]

theorem takeLetters_of_letter {c : Char} (hc : code c = .letter) (rest : List Char) :
    takeLetters code (c :: rest) =
      (c :: (takeLetters code rest).1, (takeLetters code rest).2.1,
        c.utf8Size + (takeLetters code rest).2.2) := by
  have hsup : code c ≠ .superscript := by simp [hc]
  rw [takeLetters]
  split
  case h_1 hnone => cases hnone.symm.trans (readChar?_of_ne hsup rest)
  case h_2 r hr =>
    obtain rfl := Option.some.inj ((readChar?_of_ne hsup rest).symm.trans hr)
    simp [hc]

/-- The letters of a control word end where another character comes. -/
theorem takeLetters_append {letters rest : List Char} (hletters : ∀ c ∈ letters, code c = .letter)
    (hrest : ∀ c ∈ rest.head?, code c ≠ .letter ∧ code c ≠ .superscript) :
    (takeLetters code (letters ++ rest)).1 = letters ∧
      (takeLetters code (letters ++ rest)).2.1 = rest := by
  induction letters with
  | nil =>
    cases rest with
    | nil => simp [takeLetters, readChar?]
    | cons c rest =>
      obtain ⟨hletter, hsup⟩ := hrest c rfl
      simp [takeLetters_of_ne hsup hletter]
  | cons c letters ih =>
    obtain ⟨hname, hleft⟩ := ih fun c hc => hletters c (List.mem_cons_of_mem _ hc)
    rw [List.cons_append, takeLetters_of_letter (hletters c List.mem_cons_self)]
    simp [hname, hleft]

/-! ### Which value can follow which -/

/-- Whether a blank that comes next is a space, and not skipped. -/
def countsBlanks (lx : Lexer) : Bool := lx.state = .midLine

/-- A lexer can give the value, if blanks count or not; and whether they count afterwards. -/
inductive CanGive : Bool → TokenValue → Bool → Prop where
  | char {counts : Bool} {category : CharCategory} {c : Char}
      (hc : CatCode.ofChar c = category.code) (hspace : category ≠ .space)
      (hsup : category ≠ .superscript) : CanGive counts (.char category c) true
  | active {counts : Bool} {c : Char} (hc : CatCode.ofChar c = .active) :
      CanGive counts (.command (.active c)) true
  | space : CanGive true (.char .space ' ') false
  | word {counts : Bool} {c : Char} {letters : List Char}
      (h : ∀ l ∈ c :: letters, CatCode.ofChar l = .letter) :
      CanGive counts (.controlSequence (String.ofList (c :: letters))) false
  | symbol {counts after : Bool} {c : Char} (hc : CatCode.ofChar c ≠ .letter)
      (hsup : CatCode.ofChar c ≠ .superscript)
      (hafter : after = true ↔ CatCode.ofChar c ≠ .space) :
      CanGive counts (.controlSequence c.toString) after

/-- What can be given where blanks do not count can be given where they do. -/
theorem CanGive.mono {counts counts' after : Bool} {v : TokenValue} (h : CanGive counts v after)
    (hc : counts = true → counts' = true) : CanGive counts' v after := by
  cases h with
  | char hcode hspace hsup => exact .char hcode hspace hsup
  | active hcode => exact .active hcode
  | space =>
    obtain rfl := hc rfl
    exact .space
  | word hletters => exact .word hletters
  | symbol hcode hsup hafter => exact .symbol hcode hsup hafter

/-- The values can be given one after another. -/
inductive Legible : Bool → List TokenValue → Prop where
  | nil {counts : Bool} : Legible counts []
  | cons {counts after : Bool} {v : TokenValue} {vs : List TokenValue} (h : CanGive counts v after)
      (hvs : Legible after vs) : Legible counts (v :: vs)

/-- A name is a control word or a control symbol. -/
theorem canGive_controlSequence (hsup : ∀ c ∈ lx.rest, CatCode.ofChar c ≠ .superscript)
    {key : SourceKey} (h : lx.controlSequence CatCode.ofChar key = (.ok t, lx')) (counts : Bool) :
    CanGive counts t.value lx'.countsBlanks := by
  unfold controlSequence at h
  split at h
  · cases h
  case h_2 first hfirst =>
    have hchars := eq_cons_of_readChar? hsup hfirst
    have hrest : ∀ c ∈ first.rest, CatCode.ofChar c ≠ .superscript := by
      intro c hc
      exact hsup c (by rw [hchars]; exact List.mem_cons_of_mem _ hc)
    have hchar : CatCode.ofChar first.char ≠ .superscript :=
      hsup _ (by rw [hchars]; exact List.mem_cons_self)
    split at h
    case h_1 hletter =>
      cases h
      refine .word fun l hl => ?_
      rcases List.mem_cons.1 hl with rfl | hl
      · exact hletter
      · exact (takeLetters_spec hrest).2 l hl
    case h_2 hspace =>
      cases h
      exact .symbol (by simp [hspace]) hchar (by simp [countsBlanks, hspace])
    case h_3 hletter hspace =>
      cases h
      exact .symbol hletter hchar (iff_of_true rfl hspace)

/-- A character that gives a token is an escape character before a name, a blank or the end of a line, or
it becomes the token itself. -/
theorem token_of_step (h : lx.step code r = (.token t, lx')) :
    (code r.char = .escape ∧ (lx.moveTo r.rest r.width).controlSequence code
        (lx.keys.keyAt lx.offset) = (.ok t, lx')) ∨
      (t.value = .char .space ' ' ∧ lx.countsBlanks = true ∧ lx'.countsBlanks = false) ∨
      (t.value = .par ∧ lx'.countsBlanks = false) ∨
      (TokenValue.ofChar? r.char (code r.char) = some t.value ∧ code r.char ≠ .space ∧
        lx'.countsBlanks = true) := by
  unfold step at h
  dsimp only at h
  split at h
  case h_1 hescape =>
    split at h
    case h_1 hname =>
      cases h
      exact .inl ⟨hescape, hname⟩
    case h_2 => cases h
  case h_2 =>
    split at h
    case isTrue hstate =>
      cases h
      exact .inr (.inl ⟨rfl, decide_eq_true hstate, rfl⟩)
    case isFalse => cases h
  case h_3 =>
    split at h
    case h_1 =>
      cases h
      exact .inr (.inr (.inl ⟨rfl, rfl⟩))
    case h_2 hstate =>
      cases h
      exact .inr (.inl ⟨rfl, decide_eq_true hstate, rfl⟩)
    case h_3 => cases h
  case h_4 =>
    split at h
    · split at h <;> cases h
    · cases h
  case h_5 => cases h
  case h_6 => cases h
  case h_7 hspace _ _ _ _ =>
    split at h
    case h_1 v hv =>
      cases h
      exact .inr (.inr (.inr ⟨hv, hspace, rfl⟩))
    case h_2 => cases h

/-- A character that gives a token gives one that can follow. -/
theorem canGive_step (hsup : ∀ c ∈ lx.rest, CatCode.ofChar c ≠ .superscript)
    (hr : readChar? CatCode.ofChar lx.rest = some r)
    (h : lx.step CatCode.ofChar r = (.token t, lx')) :
    CanGive lx.countsBlanks t.value lx'.countsBlanks := by
  have hchars := eq_cons_of_readChar? hsup hr
  rcases token_of_step h with ⟨-, hname⟩ | ⟨hv, hbefore, hafter⟩ | ⟨hv, hafter⟩ | ⟨hv, hspace, hafter⟩
  · refine canGive_controlSequence (fun c hc => hsup c ?_) hname _
    rw [hchars]
    exact List.mem_cons_of_mem _ hc
  · rw [hv, hbefore, hafter]
    exact .space
  · have hletters : ∀ l ∈ ['p', 'a', 'r'], CatCode.ofChar l = .letter :=
      List.forall_mem_cons.2 ⟨by decide, List.forall_mem_cons.2 ⟨by decide,
        List.forall_mem_singleton.2 (by decide)⟩⟩
    rw [hv, hafter]
    exact .word hletters
  · have hchar : CatCode.ofChar r.char ≠ .superscript :=
      hsup _ (by rw [hchars]; exact List.mem_cons_self)
    rw [hafter]
    rcases TokenValue.eq_of_ofChar? hv with ⟨category, hcode, hv⟩ | ⟨hcode, hv⟩
    · rw [hv]
      refine .char hcode.symm ?_ ?_
      · rintro rfl
        exact hspace hcode.symm
      · rintro rfl
        exact hchar hcode.symm
    · rw [hv]
      exact .active hcode

/-- Where no token is given, blanks do not begin to count. -/
theorem countsBlanks_step {o : Outcome} (h : lx.step code r = (o, lx')) (ho : ∀ t, o ≠ .token t)
    (hcounts : lx'.countsBlanks = true) : lx.countsBlanks = true := by
  unfold step at h
  dsimp only at h
  split at h
  · split at h
    case h_1 =>
      cases h
      exact absurd rfl (ho _)
    case h_2 e lx₁ hname =>
      cases h
      unfold controlSequence at hname
      split at hname
      · cases hname
        exact hcounts
      · split at hname <;> cases hname
  · split at h
    · cases h
      exact absurd rfl (ho _)
    · cases h
      exact hcounts
  · split at h
    · cases h
      cases hcounts
    · cases h
      cases hcounts
    · cases h
      cases hcounts
  · split at h
    · split at h <;>
      · cases h
        cases hcounts
    · cases h
      cases hcounts
  · cases h
    exact hcounts
  · cases h
    exact hcounts
  case h_7 hescape hspace hend hcomment hignored hinvalid =>
    split at h
    · cases h
      exact absurd rfl (ho _)
    case h_2 hnone =>
      have hsome := TokenValue.isSome_ofChar? r.char (code r.char)
      rw [hnone] at hsome
      cases hcode : code r.char <;> simp_all [CatCode.isTokenCategory]

/-- **What a lexer gives can follow what it gave before.** -/
theorem canGive_next (hsup : ∀ c ∈ lx.rest, CatCode.ofChar c ≠ .superscript)
    (h : lx.next CatCode.ofChar = (.ok (some t), lx')) :
    CanGive lx.countsBlanks t.value lx'.countsBlanks ∧
      ∀ c ∈ lx'.rest, CatCode.ofChar c ≠ .superscript := by
  fun_induction Lexer.next lx CatCode.ofChar with
  | case1 => cases h
  | case2 lx r hr t' after hs =>
    cases h
    have hsuffix := step_suffix hr
    rw [hs] at hsuffix
    exact ⟨canGive_step hsup hr hs, fun c hc => hsup c (hsuffix.subset hc)⟩
  | case3 => cases h
  | case4 lx r hr after hs hlt ih =>
    have hsuffix := step_suffix hr
    rw [hs] at hsuffix
    obtain ⟨hgive, hleft⟩ := ih (fun c hc => hsup c (hsuffix.subset hc)) h
    exact ⟨hgive.mono (countsBlanks_step hs (by simp)), hleft⟩

/-- The values of a text without superscripts can be given one after another. -/
theorem legible_tokenize {ts : List Token} (hsup : ∀ c ∈ lx.rest, CatCode.ofChar c ≠ .superscript)
    (h : lx.tokenize CatCode.ofChar = .ok ts) :
    Legible lx.countsBlanks (ts.map Token.value) := by
  fun_induction Lexer.tokenize lx CatCode.ofChar generalizing ts with
  | case1 =>
    cases h
    exact .nil
  | case2 => cases h
  | case3 lx t lx' hnext hlt ih =>
    obtain ⟨hgive, hleft⟩ := canGive_next hsup hnext
    cases hrest : lx'.tokenize CatCode.ofChar with
    | error e =>
      rw [hrest] at h
      cases h
    | ok rest =>
      rw [hrest] at h
      cases h
      exact .cons hgive (ih hleft hrest)

/-! ### Reading a written value -/

/-- The next token has the value. Then comes `rest`, and blanks count or not. -/
def Gives (lx : Lexer) (v : TokenValue) (rest : List Char) (after : Bool) : Prop :=
  ∃ t lx', lx.next CatCode.ofChar = (.ok (some t), lx') ∧ t.value = v ∧ lx'.rest = rest ∧
    lx'.countsBlanks = after

variable {c : Char} {rest chars : List Char} {after : Bool} {v : TokenValue}

theorem gives_of_step (hrest : lx.rest = c :: rest) (hsup : CatCode.ofChar c ≠ .superscript)
    (hstep : lx.step CatCode.ofChar ⟨c, rest, c.utf8Size⟩ = (.token t, lx')) :
    lx.Gives t.value lx'.rest lx'.countsBlanks := by
  refine ⟨t, lx', next_of_token ?_ hstep, rfl, rfl, rfl⟩
  rw [hrest]
  exact readChar?_of_ne hsup rest

/-- A character that becomes a token as it is. -/
theorem next_of_char {code : Char → CatCode} {category : CharCategory} (hc : code c = category.code)
    (hspace : category ≠ .space) (hsup : category ≠ .superscript) (hrest : lx.rest = c :: rest) :
    lx.next code = (.ok (some ⟨.char category c, lx.keys.keyAt lx.offset⟩),
      { lx.moveTo rest c.utf8Size with state := .midLine }) := by
  have hchar : code c ≠ .superscript := by
    cases category <;> simp_all [CharCategory.code]
  have hread : readChar? code lx.rest = some ⟨c, rest, c.utf8Size⟩ := by
    rw [hrest]
    exact readChar?_of_ne hchar rest
  refine next_of_token hread ?_
  unfold step
  cases category <;> simp_all [CharCategory.code, TokenValue.ofChar?]

theorem gives_char {category : CharCategory} (hc : CatCode.ofChar c = category.code)
    (hspace : category ≠ .space) (hsup : category ≠ .superscript) (hrest : lx.rest = c :: rest) :
    lx.Gives (.char category c) rest true :=
  ⟨_, _, next_of_char hc hspace hsup hrest, rfl, rfl, rfl⟩

theorem gives_active (hc : CatCode.ofChar c = .active) (hrest : lx.rest = c :: rest) :
    lx.Gives (.command (.active c)) rest true := by
  have hstep : lx.step CatCode.ofChar ⟨c, rest, c.utf8Size⟩ =
      (.token ⟨.command (.active c), lx.keys.keyAt lx.offset⟩,
        { lx.moveTo rest c.utf8Size with state := .midLine }) := by
    unfold step
    simp [hc, TokenValue.ofChar?]
  exact gives_of_step hrest (by simp [hc]) hstep

theorem code_blank : CatCode.ofChar ' ' = .space := by decide

theorem gives_space (hcounts : lx.countsBlanks = true) (hrest : lx.rest = ' ' :: rest) :
    lx.Gives (.char .space ' ') rest false := by
  have hstate : lx.state = .midLine := by simpa [countsBlanks] using hcounts
  have hstep : lx.step CatCode.ofChar ⟨' ', rest, ' '.utf8Size⟩ =
      (.token (.char .space ' ' (lx.keys.keyAt lx.offset)),
        { lx.moveTo rest ' '.utf8Size with state := .skipBlanks }) := by
    unfold step
    simp [code_blank, hstate]
  exact gives_of_step hrest (by simp [code_blank]) hstep

/-- A blank that does not count is passed over. -/
theorem gives_of_blank (hcounts : lx.countsBlanks = false) (hrest : lx.rest = ' ' :: rest)
    (h : (lx.moveTo rest ' '.utf8Size).Gives v chars after) : lx.Gives v chars after := by
  have hstate : lx.state ≠ .midLine := by simpa [countsBlanks] using hcounts
  have hread : readChar? CatCode.ofChar lx.rest = some ⟨' ', rest, ' '.utf8Size⟩ := by
    rw [hrest]
    exact readChar?_of_ne (by simp [code_blank]) rest
  have hstep : lx.step CatCode.ofChar ⟨' ', rest, ' '.utf8Size⟩ =
      (.skip, lx.moveTo rest ' '.utf8Size) := by
    unfold step
    simp [code_blank, hstate]
  unfold Gives
  rw [next_of_skip hread hstep]
  exact h

theorem code_escape : CatCode.ofChar '\\' = .escape := by decide

/-- After an escape character the lexer gives the name that it reads there. -/
theorem gives_of_controlSequence {name : String} (hrest : lx.rest = '\\' :: rest)
    (hname : ∀ key, ∃ lx', (lx.moveTo rest '\\'.utf8Size).controlSequence CatCode.ofChar key =
      (.ok (.controlSequence name key), lx') ∧ lx'.rest = chars ∧ lx'.countsBlanks = after) :
    lx.Gives (.controlSequence name) chars after := by
  obtain ⟨lx', hread, rfl, rfl⟩ := hname (lx.keys.keyAt lx.offset)
  have hstep : lx.step CatCode.ofChar ⟨'\\', rest, '\\'.utf8Size⟩ =
      (.token (.controlSequence name (lx.keys.keyAt lx.offset)), lx') := by
    unfold step
    simp [code_escape, hread]
  exact gives_of_step hrest (by simp [code_escape]) hstep

theorem gives_word {letters : List Char} (hletters : ∀ l ∈ c :: letters, CatCode.ofChar l = .letter)
    (hnext : ∀ d ∈ rest.head?, CatCode.ofChar d ≠ .letter ∧ CatCode.ofChar d ≠ .superscript)
    (hrest : lx.rest = '\\' :: c :: (letters ++ rest)) :
    lx.Gives (.controlSequence (String.ofList (c :: letters))) rest false := by
  have hc : CatCode.ofChar c = .letter := hletters c List.mem_cons_self
  obtain ⟨hname, hleft⟩ :=
    takeLetters_append (fun l hl => hletters l (List.mem_cons_of_mem c hl)) hnext
  refine gives_of_controlSequence hrest fun key => ?_
  unfold controlSequence moveTo
  dsimp only
  rw [readChar?_of_ne (by simp [hc])]
  simp only [hc, hname, hleft]
  exact ⟨_, rfl, rfl, rfl⟩

theorem gives_symbol (hc : CatCode.ofChar c ≠ .letter) (hsup : CatCode.ofChar c ≠ .superscript)
    (hafter : after = true ↔ CatCode.ofChar c ≠ .space) (hrest : lx.rest = '\\' :: c :: rest) :
    lx.Gives (.controlSequence c.toString) rest after := by
  refine gives_of_controlSequence hrest fun key => ?_
  unfold controlSequence moveTo
  dsimp only
  rw [readChar?_of_ne hsup]
  dsimp only
  split
  case h_1 hletter => exact absurd hletter hc
  case h_2 hspace =>
    have hafter : after = false := by simpa [hspace] using hafter
    exact ⟨_, rfl, rfl, hafter.symm⟩
  case h_3 hletter hspace => exact ⟨_, rfl, rfl, (hafter.2 hspace).symm⟩

/-! ### Reading what was written -/

open TokenValue in
/-- After a control word no letter is written. -/
theorem head?_writeAfter_controlWord {vs : List TokenValue} (h : Legible false vs) :
    ∀ d ∈ (writeAfter .controlWord vs).head?,
      CatCode.ofChar d ≠ .letter ∧ CatCode.ofChar d ≠ .superscript := by
  intro d hd
  cases h with
  | nil => cases hd
  | cons hv hvs =>
    cases hv with
    | @char _ category c hc hspace hsup =>
      by_cases hletter : category = .letter
      · subst hletter
        obtain rfl : ' ' = d := by simpa [writeAfter] using hd
        simp [code_blank]
      · obtain rfl : c = d := by cases category <;> simp_all [writeAfter]
        cases category <;> simp_all [CharCategory.code]
    | active hc =>
      obtain rfl : _ = d := by simpa [writeAfter] using hd
      simp [hc]
    | word =>
      obtain rfl : '\\' = d := by simpa [writeAfter] using hd
      simp [code_escape]
    | symbol =>
      obtain rfl : '\\' = d := by simpa [writeAfter] using hd
      simp [code_escape]

open TokenValue in
/-- **A written value is read again.** What was written before it says nothing else than whether blanks
count. -/
theorem gives_writeAfter {counts : Bool} {vs : List TokenValue} (hv : CanGive counts v after)
    (hvs : Legible after vs) {before : Before} (hrest : lx.rest = writeAfter before (v :: vs))
    (hcounts : lx.countsBlanks = counts) (hbefore : before ≠ .other → counts = false) :
    ∃ before', (before' ≠ .other → after = false) ∧ lx.Gives v (writeAfter before' vs) after := by
  cases hv with
  | @char _ category c hc hspace hsup =>
    refine ⟨.other, fun h => absurd rfl h, ?_⟩
    by_cases hset : before = .controlWord ∧ category = .letter
    · obtain ⟨rfl, rfl⟩ := hset
      have hoff : lx.countsBlanks = false := hcounts.trans (hbefore nofun)
      rw [writeAfter] at hrest
      exact gives_of_blank hoff hrest (gives_char hc hspace hsup rfl)
    · have hwrite : writeAfter before (.char category c :: vs) = c :: writeAfter .other vs := by
        cases before <;> cases category <;> simp_all [writeAfter]
      exact gives_char hc hspace hsup (hrest.trans hwrite)
  | @active _ c hc =>
    refine ⟨.other, fun h => absurd rfl h, ?_⟩
    have hwrite : writeAfter before (.command (.active c) :: vs) = c :: writeAfter .other vs := by
      cases before <;> rfl
    exact gives_active hc (hrest.trans hwrite)
  | space =>
    refine ⟨.space, fun _ => rfl, gives_space hcounts ?_⟩
    cases before with
    | other => exact hrest
    | _ => cases hbefore nofun
  | @word _ c letters hletters =>
    have hword : isControlWord (String.ofList (c :: letters)) = true := by
      have hc := (CatCode.ofChar_eq_letter_iff c).1 (hletters c List.mem_cons_self)
      unfold isControlWord
      rw [String.toList_ofList]
      cases letters with
      | nil => exact hc
      | cons => rfl
    refine ⟨.controlWord, fun _ => rfl, gives_word hletters (head?_writeAfter_controlWord hvs) ?_⟩
    rw [hrest, writeAfter, hword, String.toList_ofList]
    rfl
  | @symbol _ _ c hc hsup hafter =>
    have hsymbol : isControlWord c.toString = false := by
      have hc := mt (CatCode.ofChar_eq_letter_iff c).2 hc
      unfold isControlWord
      simpa using hc
    refine ⟨.other, fun h => absurd rfl h, gives_symbol hc hsup hafter ?_⟩
    rw [hrest, writeAfter, hsymbol]
    simp

open TokenValue in
/-- What can be given one after another is read again when it was written. -/
theorem tokenize_writeAfter {counts : Bool} {vs : List TokenValue} (h : Legible counts vs)
    {before : Before} (hrest : lx.rest = writeAfter before vs) (hcounts : lx.countsBlanks = counts)
    (hbefore : before ≠ .other → counts = false) :
    ∃ ts, lx.tokenize CatCode.ofChar = .ok ts ∧ ts.map Token.value = vs := by
  induction h generalizing lx before with
  | nil =>
    have hend : lx.next CatCode.ofChar = (.ok none, lx) := next_of_end (hrest.trans rfl)
    exact ⟨[], tokenize_of_end hend, rfl⟩
  | cons hv hvs ih =>
    obtain ⟨before', hbefore', t, lx', hnext, rfl, hrest', hcounts'⟩ :=
      gives_writeAfter hv hvs hrest hcounts hbefore
    obtain ⟨ts, htokens, hvalues⟩ := ih hrest' hcounts' hbefore'
    refine ⟨t :: ts, ?_, by rw [List.map_cons, hvalues]⟩
    rw [tokenize_of_token hnext, htokens]
    rfl

/-- **Writing the tokens of a text and reading them again gives the same values**, if the text has no
superscript character. -/
theorem tokenize_write {content : String} {ts : List Token} (keys keys' : KeyRange)
    (retain retain' : Bool) (hsup : ∀ c ∈ content.toList, CatCode.ofChar c ≠ .superscript)
    (h : (start content.toList keys retain).tokenize CatCode.ofChar = .ok ts) :
    ∃ ts', (start (Token.write ts).toList keys' retain').tokenize CatCode.ofChar = .ok ts' ∧
      ts'.map Token.value = ts.map Token.value := by
  have hlegible : Legible false (ts.map Token.value) := legible_tokenize hsup h
  refine tokenize_writeAfter hlegible ?_ rfl (fun h => absurd rfl h)
  exact String.toList_ofList

/-- A comment and a blank line are read as `\\par`, and so is what is written for it. -/
theorem tokenize_write_blank_line :
    (∀ c ∈ "a%\n\n".toList, CatCode.ofChar c ≠ .superscript) ∧
      (start "a%\n\n".toList .empty false).tokenize CatCode.ofChar =
        .ok [.char .letter 'a' none, ⟨.par, none⟩] ∧
      ∃ ts, (start "a\\par".toList .empty false).tokenize CatCode.ofChar = .ok ts ∧
        ts.map Token.value = [.char .letter 'a', .par] := by
  have hsup : ∀ c ∈ "a%\n\n".toList, CatCode.ofChar c ≠ .superscript := by
    have hchars : "a%\n\n".toList = ['a', '%', '\n', '\n'] := rfl
    have hnewline : CatCode.ofChar '\n' ≠ .superscript := by decide
    rw [hchars]
    exact List.forall_mem_cons.2 ⟨by decide, List.forall_mem_cons.2 ⟨by decide,
      List.forall_mem_cons.2 ⟨hnewline, List.forall_mem_singleton.2 hnewline⟩⟩⟩
  let afterLetter : Lexer := ⟨['%', '\n', '\n'], 1, 4, .empty, .midLine, false, []⟩
  let afterComment : Lexer := ⟨['\n'], 3, 4, .empty, .newLine, false, []⟩
  let atEnd : Lexer := ⟨[], 4, 4, .empty, .newLine, false, []⟩
  have hletter : (start "a%\n\n".toList .empty false).next CatCode.ofChar =
      (.ok (some (.char .letter 'a' none)), afterLetter) :=
    next_of_token (r := ⟨'a', afterLetter.rest, 1⟩) rfl rfl
  have hcomment : afterLetter.next CatCode.ofChar = afterComment.next CatCode.ofChar :=
    next_of_skip (r := ⟨'%', ['\n', '\n'], 1⟩) rfl rfl
  have hpar : afterComment.next CatCode.ofChar = (.ok (some ⟨.par, none⟩), atEnd) :=
    next_of_token (r := ⟨'\n', [], 1⟩) rfl rfl
  have htokens : (start "a%\n\n".toList .empty false).tokenize CatCode.ofChar =
      .ok [.char .letter 'a' none, ⟨.par, none⟩] := by
    rw [tokenize_of_token hletter, tokenize_of_token (hcomment.trans hpar),
      tokenize_of_end (next_of_end rfl)]
    rfl
  have hwrite : Token.write [.char .letter 'a' none, ⟨.par, none⟩] = "a\\par" := by decide
  have hread := tokenize_write .empty .empty false false hsup htokens
  rw [hwrite] at hread
  exact ⟨hsup, htokens, hread⟩

end Lexer

end Gullet
