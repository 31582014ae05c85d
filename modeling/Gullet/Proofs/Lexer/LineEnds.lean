import Gullet.Proofs.Input.Remaining
import Gullet.Proofs.Lexer.Stretches

/-!
# Carriage returns at the ends of lines

A carriage return with a line feed is one end of a line, and so is a line feed alone. A lexer that skips
to the end of a line takes both alike. But it takes a single character behind an escape character, and a
single one as the code behind a doubled superscript; where that character is a line feed, a carriage
return in front of it is read in its place, and the line feed is left over. These are the only places
where the two ways to end lines can be told apart.
-/

namespace Gullet

/-- The text with a carriage return in front of each line feed. -/
def withReturns (chars : List Char) : List Char :=
  chars.flatMap fun c => if c = '\n' then ['\r', '\n'] else [c]

@[simp] theorem withReturns_nil : withReturns [] = [] := rfl

@[simp] theorem withReturns_feed (rest : List Char) :
    withReturns ('\n' :: rest) = '\r' :: '\n' :: withReturns rest := rfl

theorem withReturns_cons {c : Char} (hc : c ≠ '\n') (rest : List Char) :
    withReturns (c :: rest) = c :: withReturns rest := by
  simp [withReturns, hc]

/-- The categories of the characters that matter at the ends of lines, as they are when none has been
assigned: a line feed and a carriage return end lines, and the characters that they are the codes of are
letters. -/
structure CatCode.EndsLines (code : Char → CatCode) : Prop where
  feed : code '\n' = .endOfLine
  carriage : code '\r' = .endOfLine
  codedFeed : code 'J' = .letter
  codedCarriage : code 'M' = .letter

theorem CatCode.endsLines_ofChar : CatCode.EndsLines CatCode.ofChar := by
  constructor <;> decide

/-! ### Reading characters -/

/-- How a character is read from a text, and from the text with carriage returns. -/
inductive ReadsAlike : List Char → ReadChar → ReadChar → Prop where
  /-- No line feed is read. -/
  | other {chars used : List Char} {r : ReadChar} (hchars : chars = used ++ r.rest)
      (hused : '\n' ∉ used) : ReadsAlike chars r { r with rest := withReturns r.rest }
  /-- A line feed is read. -/
  | feed {rest : List Char} :
      ReadsAlike ('\n' :: rest) ⟨'\n', rest, 1⟩ ⟨'\r', '\n' :: withReturns rest, 1⟩
  /-- A line feed is read as a code. -/
  | coded {c : Char} {rest : List Char} {width : Nat} :
      ReadsAlike (c :: c :: '\n' :: rest) ⟨'J', rest, width⟩ ⟨'M', '\n' :: withReturns rest, width⟩

variable {code : Char → CatCode} {chars : List Char} {r : ReadChar}

/-- The character that a single one is the code of. -/
def shortCode? (third : Char) (rest : List Char) : Option ReadChar :=
  if third.toNat < 128 then
    some ⟨Char.ofNat (if third.toNat < 64 then third.toNat + 64 else third.toNat - 64), rest,
      third.utf8Size⟩
  else none

theorem decodePair?_of_hex {third fourth : Char} {high low : Nat}
    (hhigh : lowerHexDigit? third = some high) (hlow : lowerHexDigit? fourth = some low)
    (rest : List Char) :
    decodePair? (third :: fourth :: rest) =
      some ⟨Char.ofNat (high * 16 + low), rest, third.utf8Size + fourth.utf8Size⟩ := by
  simp [decodePair?, hhigh, hlow]

theorem decodePair?_of_not_hex {third : Char} {rest : List Char}
    (h : lowerHexDigit? third = none ∨ ∀ fourth ∈ rest.head?, lowerHexDigit? fourth = none) :
    decodePair? (third :: rest) = shortCode? third rest := by
  cases rest with
  | nil => rfl
  | cons fourth rest =>
    rcases h with h | h
    · simp [decodePair?, shortCode?, h]
    · have hfourth : lowerHexDigit? fourth = none := h fourth rfl
      cases hthird : lowerHexDigit? third <;> simp [decodePair?, shortCode?, hthird, hfourth]

/-- A line feed is the code of one letter. -/
theorem decodePair?_feed (rest : List Char) :
    decodePair? ('\n' :: rest) = some ⟨'J', rest, 1⟩ :=
  decodePair?_of_not_hex (.inl (by decide))

/-- A carriage return is the code of another letter. -/
theorem decodePair?_carriage (rest : List Char) :
    decodePair? ('\r' :: rest) = some ⟨'M', rest, 1⟩ :=
  decodePair?_of_not_hex (.inl (by decide))

/-- Both texts begin with the same code, which takes no line feed, or neither begins with a code. -/
def DecodesAlike (pair pair' : List Char) : Prop :=
  (∃ used r, pair = used ++ r.rest ∧ '\n' ∉ used ∧ decodePair? pair = some r ∧
      decodePair? pair' = some { r with rest := withReturns r.rest }) ∨
    decodePair? pair = none ∧ decodePair? pair' = none

/-- A code that is no line feed is the same code in the text with carriage returns. -/
theorem decodePair?_withReturns {third : Char} (hthird : third ≠ '\n') (rest : List Char) :
    DecodesAlike (third :: rest) (third :: withReturns rest) := by
  have hshort (hrest : decodePair? (third :: rest) = shortCode? third rest)
      (hrest' : decodePair? (third :: withReturns rest) = shortCode? third (withReturns rest)) :
      DecodesAlike (third :: rest) (third :: withReturns rest) := by
    rw [DecodesAlike, hrest, hrest', shortCode?, shortCode?]
    by_cases hascii : third.toNat < 128
    · rw [if_pos hascii, if_pos hascii]
      exact .inl ⟨[third], _, rfl, fun h => hthird (List.mem_singleton.1 h).symm, rfl, rfl⟩
    · rw [if_neg hascii, if_neg hascii]
      exact .inr ⟨rfl, rfl⟩
  cases rest with
  | nil => exact hshort rfl rfl
  | cons fourth rest =>
    by_cases hfourth : fourth = '\n'
    · subst hfourth
      refine hshort (decodePair?_of_not_hex (.inr ?_)) (decodePair?_of_not_hex (.inr ?_))
      · exact fun c hc => by cases hc; decide
      · exact fun c hc => by cases hc; decide
    · rw [withReturns_cons hfourth]
      rw [withReturns_cons hfourth] at hshort
      cases hhigh : lowerHexDigit? third with
      | none => exact hshort (decodePair?_of_not_hex (.inl hhigh)) (decodePair?_of_not_hex (.inl hhigh))
      | some high =>
        cases hlow : lowerHexDigit? fourth with
        | none =>
          refine hshort (decodePair?_of_not_hex (.inr ?_)) (decodePair?_of_not_hex (.inr ?_))
          · exact fun c hc => by cases hc; exact hlow
          · exact fun c hc => by cases hc; exact hlow
        | some low =>
          refine .inl ⟨[third, fourth], _, rfl, ?_, decodePair?_of_hex hhigh hlow rest,
            decodePair?_of_hex hhigh hlow _⟩
          simp [Ne.symm hthird, Ne.symm hfourth]

/-- A superscript that does not stand twice, or that no code follows, stands for itself. -/
theorem readChar?_of_not_coded {c : Char} {rest : List Char}
    (h : ∀ pair, rest = c :: pair → decodePair? pair = none) :
    readChar? code (c :: rest) = some ⟨c, rest, c.utf8Size⟩ := by
  unfold readChar?
  dsimp only
  split
  · rfl
  · cases rest with
    | nil => rfl
    | cons second pair =>
      dsimp only
      split
      · rfl
      case isFalse hsecond =>
        rw [h pair (by rw [Decidable.not_not.1 hsecond])]

theorem readChar?_of_coded {c : Char} {pair : List Char} (hc : code c = .superscript)
    (hpair : decodePair? pair = some r) :
    readChar? code (c :: c :: pair) = some { r with width := 2 * c.utf8Size + r.width } := by
  simp [readChar?, hc, hpair]

theorem readChar?_of_second_ne {c second : Char} (h : second ≠ c) (rest : List Char) :
    readChar? code (c :: second :: rest) = some ⟨c, second :: rest, c.utf8Size⟩ :=
  readChar?_of_not_coded fun _ hpair => absurd (List.cons.inj hpair).1 h

/-- A character that stands for itself is read alike from both texts. -/
theorem ReadsAlike.single {c : Char} (hc : c ≠ '\n') (rest : List Char) :
    ReadsAlike (c :: rest) ⟨c, rest, c.utf8Size⟩ ⟨c, withReturns rest, c.utf8Size⟩ := by
  have hused : '\n' ∉ [c] := fun hmem => hc (List.mem_singleton.1 hmem).symm
  exact .other (r := ⟨c, rest, c.utf8Size⟩) rfl hused

/-- What a doubled superscript begins is read alike from both texts. -/
theorem readChar?_doubled_withReturns {c : Char} (hsup : code c = .superscript) (hc : c ≠ '\n')
    (pair : List Char) :
    ∃ r r', readChar? code (c :: c :: pair) = some r ∧
      readChar? code (c :: c :: withReturns pair) = some r' ∧ ReadsAlike (c :: c :: pair) r r' := by
  -- without a code the first superscript is read alone
  have hsingle (h : decodePair? pair = none) (h' : decodePair? (withReturns pair) = none) :
      ∃ r r', readChar? code (c :: c :: pair) = some r ∧
        readChar? code (c :: c :: withReturns pair) = some r' ∧ ReadsAlike (c :: c :: pair) r r' := by
    have halike := ReadsAlike.single hc (c :: pair)
    rw [withReturns_cons hc] at halike
    exact ⟨_, _, readChar?_of_not_coded fun _ heq => (List.cons.inj heq).2 ▸ h,
      readChar?_of_not_coded fun _ heq => (List.cons.inj heq).2 ▸ h', halike⟩
  cases pair with
  | nil => exact hsingle rfl rfl
  | cons third rest =>
    by_cases hthird : third = '\n'
    · subst hthird
      exact ⟨_, _, readChar?_of_coded hsup (decodePair?_feed rest),
        readChar?_of_coded hsup (decodePair?_carriage _), .coded⟩
    · rw [withReturns_cons hthird] at hsingle ⊢
      rcases decodePair?_withReturns hthird rest with
        ⟨used, decoded, hwhole, hused, hpair, hpair'⟩ | ⟨hpair, hpair'⟩
      · have hused' : '\n' ∉ c :: c :: used := by simp [Ne.symm hc, hused]
        refine ⟨_, _, readChar?_of_coded hsup hpair, readChar?_of_coded hsup hpair',
          .other (r := { decoded with width := 2 * c.utf8Size + decoded.width }) ?_ hused'⟩
        rw [hwhole]
        rfl
      · exact hsingle hpair hpair'

/-- The first character of a text is read alike from both texts. -/
theorem readChar?_cons_withReturns (hcode : CatCode.EndsLines code) {c : Char} {rest : List Char}
    (hclean : '\r' ∉ c :: rest) :
    ∃ r r', readChar? code (c :: rest) = some r ∧
      readChar? code (withReturns (c :: rest)) = some r' ∧ ReadsAlike (c :: rest) r r' := by
  by_cases hfeed : c = '\n'
  · subst hfeed
    exact ⟨_, _, Lexer.readChar?_of_ne (by rw [hcode.feed]; decide) _,
      Lexer.readChar?_of_ne (by rw [hcode.carriage]; decide) _, .feed⟩
  · rw [withReturns_cons hfeed]
    have hreturn : '\r' ≠ c := fun h => hclean (h ▸ List.mem_cons_self)
    have halike := ReadsAlike.single hfeed rest
    by_cases hsup : code c = .superscript
    · cases rest with
      | nil =>
        exact ⟨_, _, readChar?_of_not_coded nofun, readChar?_of_not_coded nofun, halike⟩
      | cons second pair =>
        by_cases hsecond : second = c
        · subst hsecond
          rw [withReturns_cons hfeed]
          exact readChar?_doubled_withReturns hsup hfeed pair
        · by_cases hsecond' : second = '\n'
          · subst hsecond'
            exact ⟨_, _, readChar?_of_second_ne hsecond _, readChar?_of_second_ne hreturn _, halike⟩
          · rw [withReturns_cons hsecond'] at halike ⊢
            exact ⟨_, _, readChar?_of_second_ne hsecond _, readChar?_of_second_ne hsecond _, halike⟩
    · exact ⟨_, _, Lexer.readChar?_of_ne hsup _, Lexer.readChar?_of_ne hsup _, halike⟩

/-- **A character is read alike from both texts**, as long as it takes no line feed. -/
theorem readChar?_withReturns (hcode : CatCode.EndsLines code) (hclean : '\r' ∉ chars)
    (hr : readChar? code chars = some r) :
    ∃ r', readChar? code (withReturns chars) = some r' ∧ ReadsAlike chars r r' := by
  cases chars with
  | nil => cases hr
  | cons c rest =>
    obtain ⟨r₁, r', hr₁, hr', halike⟩ := readChar?_cons_withReturns hcode hclean
    obtain rfl := Option.some.inj (hr₁.symm.trans hr)
    exact ⟨r', hr', halike⟩

theorem not_mem_of_suffix {a b : List Char} {c : Char} (h : a <:+ b) (hc : c ∉ b) : c ∉ a :=
  fun hmem => hc (h.subset hmem)

/-! ### Names -/

theorem takeLetters_of_read (hr : readChar? code chars = some r) (h : code r.char = .letter) :
    takeLetters code chars =
      (r.char :: (takeLetters code r.rest).1, (takeLetters code r.rest).2.1,
        r.width + (takeLetters code r.rest).2.2) := by
  rw [takeLetters]
  split
  case h_1 hnone => cases hnone.symm.trans hr
  case h_2 r' hr' =>
    obtain rfl := Option.some.inj (hr'.symm.trans hr)
    rw [if_pos h]

theorem takeLetters_of_read_ne (hr : readChar? code chars = some r) (h : code r.char ≠ .letter) :
    takeLetters code chars = ([], chars, 0) := by
  rw [takeLetters]
  split
  · rfl
  case h_2 r' hr' =>
    obtain rfl := Option.some.inj (hr'.symm.trans hr)
    rw [if_neg h]

/-- **The letters of a name are the same in both texts exactly if no line feed is among their codes.** -/
theorem takeLetters_withReturns (hcode : CatCode.EndsLines code) (hclean : '\r' ∉ chars) :
    ∃ used, chars = used ++ (takeLetters code chars).2.1 ∧
      ('\n' ∉ used ∧
          (takeLetters code (withReturns chars)).1 = (takeLetters code chars).1 ∧
          (takeLetters code (withReturns chars)).2.1 = withReturns (takeLetters code chars).2.1 ∨
        '\n' ∈ used ∧ (takeLetters code (withReturns chars)).1 ≠ (takeLetters code chars).1) := by
  fun_induction takeLetters code chars with
  | case1 chars hr =>
    obtain rfl := eq_nil_of_readChar?_eq_none hr
    exact ⟨[], rfl, .inl ⟨List.not_mem_nil, by simp [takeLetters, readChar?]⟩⟩
  | case2 chars r hr hletter hlt letters rest width heq ih =>
    obtain ⟨r', hr', halike⟩ := readChar?_withReturns hcode hclean hr
    obtain ⟨used, hused, hcases⟩ := ih (not_mem_of_suffix (readChar?_suffix hr) hclean)
    rw [heq] at hused hcases
    cases halike with
    | feed => exact absurd hletter (by rw [hcode.feed]; decide)
    | @coded c rest' width' =>
      -- the code of a line feed is a letter, and that of a carriage return another one
      rw [takeLetters_of_read hr' hcode.codedCarriage]
      have hwhole : rest' = used ++ rest := hused
      have hne : 'M' ≠ 'J' := by decide
      refine ⟨c :: c :: '\n' :: used, by rw [hwhole]; rfl, .inr ⟨by simp, ?_⟩⟩
      exact fun heq => hne (List.cons.inj heq).1
    | @other _ first _ hchars hfirst =>
      rw [takeLetters_of_read hr' hletter]
      refine ⟨first ++ used, by rw [List.append_assoc, ← hused, hchars], ?_⟩
      rcases hcases with ⟨hfeed, hletters, hrest⟩ | ⟨hfeed, hletters⟩
      · refine .inl ⟨fun h => ?_, congrArg (r.char :: ·) hletters, hrest⟩
        exact (List.mem_append.1 h).elim hfirst hfeed
      · exact .inr ⟨List.mem_append_right _ hfeed, fun heq => hletters (List.cons.inj heq).2⟩
  | case3 chars r hr hletter =>
    refine ⟨[], rfl, .inl ⟨List.not_mem_nil, ?_⟩⟩
    obtain ⟨r', hr', halike⟩ := readChar?_withReturns hcode hclean hr
    have hletter' : code r'.char ≠ .letter := by
      cases halike with
      | feed => rw [hcode.carriage]; decide
      | coded => exact absurd hcode.codedFeed hletter
      | other => exact hletter
    rw [takeLetters_of_read_ne hr' hletter']
    exact ⟨rfl, rfl⟩

/-- What a call shows of itself, apart from where it stands in the source. -/
def LexError.unkeyed : LexError → LexError
  | invalidCharacter c _ => invalidCharacter c none
  | emptyControlSequence _ => emptyControlSequence none
  | reversedComment => reversedComment

namespace Lexer

/-- What a call gives, regardless of where it was read: nothing at the end of the source. -/
def given : Except LexError (Option Token) → Option (Except LexError TokenValue)
  | .ok none => none
  | .ok (some t) => some (.ok t.value)
  | .error e => some (.error e.unkeyed)

/-- A token or a failure, regardless of where it was read. -/
def Item.unkeyed : Item → Except LexError TokenValue
  | .ok t => .ok t.value
  | .error e => .error e.unkeyed

/-- The second lexer has to read what the first one has, with carriage returns. -/
structure Returned (lx lx' : Lexer) : Prop where
  clean : '\r' ∉ lx.rest
  rest : lx'.rest = withReturns lx.rest
  state : lx'.state = lx.state

variable {lx lx' : Lexer}

theorem controlSequence_of_letter {first : ReadChar} (hr : readChar? code lx.rest = some first)
    (h : code first.char = .letter) (key : SourceKey) :
    lx.controlSequence code key =
      (.ok (.controlSequence
          (String.ofList (first.char :: (takeLetters code first.rest).1)) key),
        { lx.moveTo (takeLetters code first.rest).2.1
            (first.width + (takeLetters code first.rest).2.2) with state := .skipBlanks }) := by
  simp [controlSequence, hr, h]

theorem controlSequence_of_ne_letter {first : ReadChar} (hr : readChar? code lx.rest = some first)
    (h : code first.char ≠ .letter) (key : SourceKey) :
    lx.controlSequence code key =
      (.ok (.controlSequence first.char.toString key),
        { lx.moveTo first.rest first.width with
          state := if code first.char = .space then .skipBlanks else .midLine }) := by
  simp only [controlSequence, hr]
  split
  case h_1 hletter => exact absurd hletter h
  case h_2 hspace => rw [if_pos hspace]
  case h_3 hspace => rw [if_neg hspace]

theorem controlSequence_value_ne {name name' : List Char} (h : name ≠ name')
    (key key' : SourceKey) :
    (Token.controlSequence (String.ofList name) key).value ≠
      (Token.controlSequence (String.ofList name') key').value := by
  intro heq
  injection heq with href
  injection href with hname
  exact h (String.ofList_injective hname)

/-- **A name is read alike from both texts, or it takes a line feed and is told by it.** -/
theorem controlSequence_returned (hcode : CatCode.EndsLines code) (h : lx.Returned lx')
    (key key' : SourceKey) :
    ∃ used, lx.rest = used ++ (lx.controlSequence code key).2.rest ∧
      ('\n' ∉ used ∧ (lx.controlSequence code key).2.Returned (lx'.controlSequence code key').2 ∧
          given ((lx'.controlSequence code key').1.map some) =
            given ((lx.controlSequence code key).1.map some) ∨
        '\n' ∈ used ∧ ∃ t t', (lx.controlSequence code key).1 = .ok t ∧
          (lx'.controlSequence code key').1 = .ok t' ∧ t'.value ≠ t.value) := by
  cases hr : readChar? code lx.rest with
  | none =>
    have hnil := eq_nil_of_readChar?_eq_none hr
    have hr' : readChar? code lx'.rest = none := by
      rw [h.rest, hnil]
      rfl
    simp only [controlSequence, hr, hr']
    exact ⟨[], rfl, .inl ⟨List.not_mem_nil, h, rfl⟩⟩
  | some first =>
    have hclean := h.clean
    obtain ⟨first', hr', halike⟩ := readChar?_withReturns hcode h.clean hr
    rw [← h.rest] at hr'
    generalize hchars : lx.rest = chars at halike hclean
    cases halike with
    | @feed rest =>
      -- the line feed is a name, and so is the carriage return
      have hfeed : code '\n' ≠ .letter := by rw [hcode.feed]; decide
      have hcarriage : code '\r' ≠ .letter := by rw [hcode.carriage]; decide
      rw [controlSequence_of_ne_letter hr hfeed, controlSequence_of_ne_letter hr' hcarriage]
      have hne : ['\r'] ≠ ['\n'] := by decide
      exact ⟨['\n'], rfl, .inr ⟨List.mem_singleton_self _, _, _, rfl, rfl,
        controlSequence_value_ne hne key' key⟩⟩
    | @coded c rest width =>
      rw [controlSequence_of_letter hr hcode.codedFeed,
        controlSequence_of_letter hr' hcode.codedCarriage]
      have hne : 'M' ≠ 'J' := by decide
      obtain ⟨gone, hgone⟩ := takeLetters_suffix code rest
      refine ⟨c :: c :: '\n' :: gone, ?_, .inr ⟨by simp, _, _, rfl, rfl,
        controlSequence_value_ne (fun heq => hne (List.cons.inj heq).1) key' key⟩⟩
      show c :: c :: '\n' :: rest = c :: c :: '\n' :: (gone ++ (takeLetters code rest).2.1)
      rw [hgone]
    | @other _ used _ hwhole hused =>
      have hrest : '\r' ∉ first.rest := fun hmem => hclean (hwhole ▸ List.mem_append_right _ hmem)
      by_cases hletter : code first.char = .letter
      · rw [controlSequence_of_letter hr hletter, controlSequence_of_letter hr' hletter]
        obtain ⟨gone, hgone, hcases⟩ := takeLetters_withReturns hcode hrest
        refine ⟨used ++ gone, ?_, ?_⟩
        · rw [hwhole, List.append_assoc]
          exact congrArg _ hgone
        · rcases hcases with ⟨hfeed, hletters, hleft⟩ | ⟨hfeed, hletters⟩
          · refine .inl ⟨fun hmem => (List.mem_append.1 hmem).elim hused hfeed, ⟨?_, hleft, rfl⟩, ?_⟩
            · exact not_mem_of_suffix (takeLetters_suffix code first.rest) hrest
            · show given (.ok (some _)) = given (.ok (some _))
              rw [hletters]
              rfl
          · exact .inr ⟨List.mem_append_right _ hfeed, _, _, rfl, rfl,
              controlSequence_value_ne (fun heq => hletters (List.cons.inj heq).2) key' key⟩
      · rw [controlSequence_of_ne_letter hr hletter, controlSequence_of_ne_letter hr' hletter]
        exact ⟨used, hwhole, .inl ⟨hused, ⟨hrest, rfl, rfl⟩, rfl⟩⟩

/-! ### Stretches -/

end Lexer

/-- The stretch takes a line feed, though not as the end of its line. -/
def Stretch.SplitsLine (s : Stretch) : Prop := '\n' ∈ s.text ∧ ¬ s.TakesLine

namespace Lexer

variable {lx lx' : Lexer}

/-- What a stretch takes is what it goes over, if it does not turn back. -/
theorem splitsLine_iff {s : Stretch} {used : List Char} (hline : ¬ s.TakesLine)
    (hused : s.before.rest = used ++ s.after.rest) : s.SplitsLine ↔ '\n' ∈ used := by
  have htext : s.text = used := by
    have happend := s.text_append fun hback => hline hback.1
    rw [hused] at happend
    exact List.append_cancel_right happend
  rw [Stretch.SplitsLine, htext]
  exact and_iff_left hline

/-- After its line a lexer goes on alike in both texts. -/
theorem afterLineEnd_withReturns {chars : List Char} (hclean : '\r' ∉ chars) :
    (afterLineEnd ((withReturns chars).dropWhile (!isLineEnd ·))).1 =
      withReturns (afterLineEnd (chars.dropWhile (!isLineEnd ·))).1 := by
  induction chars with
  | nil => rfl
  | cons c rest ih =>
    by_cases hc : c = '\n'
    · subst hc
      rfl
    · have hreturn : c ≠ '\r' := fun h => hclean (h ▸ List.mem_cons_self)
      have hend : isLineEnd c = false := by simp [isLineEnd, hc, hreturn]
      rw [withReturns_cons hc, List.dropWhile_cons_of_pos (by simp [hend]),
        List.dropWhile_cons_of_pos (by simp [hend])]
      exact ih fun hmem => hclean (List.mem_cons_of_mem _ hmem)

/-- The rest of a line is skipped alike in both texts. -/
theorem behindLine_returned {r' : ReadChar} (hcode : CatCode.EndsLines code) (h : lx.Returned lx')
    (hr : readChar? code lx.rest = some r) (halike : ReadsAlike lx.rest r r')
    (hletter : code r.char ≠ .letter) :
    code r'.char = code r.char ∧ (lx.behindLine r).Returned (lx'.behindLine r') := by
  have hsuffix := skipLine_suffix (readChar?_suffix hr) r.width
  have hlt := length_readChar? hr
  have hclean := h.clean
  suffices hskip : code r'.char = code r.char ∧
      (skipLine (withReturns lx.rest) r'.rest r'.width).1 =
        withReturns (skipLine lx.rest r.rest r.width).1 by
    refine ⟨hskip.1, not_mem_of_suffix hsuffix hclean, ?_, rfl⟩
    rw [← h.rest] at hskip
    exact hskip.2
  generalize lx.rest = chars at halike hclean hlt
  cases halike with
  | feed => exact ⟨by rw [hcode.feed, hcode.carriage], rfl⟩
  | coded => exact absurd hcode.codedFeed hletter
  | @other _ used _ hwhole hused =>
    refine ⟨rfl, ?_⟩
    cases used with
    | nil =>
      rw [hwhole] at hlt
      exact absurd hlt (Nat.lt_irrefl _)
    | cons c gone =>
      have hfeed : c ≠ '\n' := fun heq => hused (heq ▸ List.mem_cons_self)
      have hreturn : c ≠ '\r' := fun heq => hclean (by simp [hwhole, heq])
      have hend : isLineEnd c = false := by simp [isLineEnd, hfeed, hreturn]
      have hrest : '\r' ∉ r.rest := fun hmem => hclean (hwhole ▸ List.mem_append_right _ hmem)
      rw [hwhole, List.cons_append, withReturns_cons hfeed]
      simp only [skipLine, List.head?_cons, Option.any_some, hend, Bool.false_eq_true, if_false]
      exact afterLineEnd_withReturns hrest

/-- An escape character makes the lexer read a name. -/
theorem step_of_escape (lx : Lexer) (r : ReadChar) (h : code r.char = .escape) :
    (lx.step code r).1.result =
        ((lx.moveTo r.rest r.width).controlSequence code (lx.keys.keyAt lx.offset)).1.map some ∧
      (lx.step code r).2 =
        ((lx.moveTo r.rest r.width).controlSequence code (lx.keys.keyAt lx.offset)).2 := by
  unfold step
  rw [h]
  dsimp only
  split
  case h_1 hcs => rw [hcs]; exact ⟨rfl, rfl⟩
  case h_2 hcs => rw [hcs]; exact ⟨rfl, rfl⟩

/-- Any other character stands for itself. -/
theorem step_returned (h : lx.Returned lx') (hclean : '\r' ∉ r.rest)
    (hescape : code r.char ≠ .escape) (hend : code r.char ≠ .endOfLine)
    (hcomment : code r.char ≠ .comment) :
    (lx.step code r).2.rest = r.rest ∧
      given (lx'.step code { r with rest := withReturns r.rest }).1.result =
        given (lx.step code r).1.result ∧
      (lx.step code r).2.Returned (lx'.step code { r with rest := withReturns r.rest }).2 := by
  unfold step
  dsimp only
  rw [h.state]
  split
  case h_1 hcode => exact absurd hcode hescape
  · split
    · exact ⟨rfl, rfl, hclean, rfl, rfl⟩
    · exact ⟨rfl, rfl, hclean, rfl, h.state⟩
  case h_3 hcode => exact absurd hcode hend
  case h_4 hcode => exact absurd hcode hcomment
  · exact ⟨rfl, rfl, hclean, rfl, h.state⟩
  · exact ⟨rfl, rfl, hclean, rfl, h.state⟩
  · split
    · exact ⟨rfl, rfl, hclean, rfl, rfl⟩
    · exact ⟨rfl, rfl, hclean, rfl, rfl⟩

/-- A letter is a token. -/
theorem given_step_of_letter (lx : Lexer) (r : ReadChar) (h : code r.char = .letter) :
    given (lx.step code r).1.result = some (.ok (.char .letter r.char)) ∧
      (lx.step code r).2.rest = r.rest := by
  unfold step
  rw [h]
  exact ⟨rfl, rfl⟩

/-- A comment gives nothing, if no text of it is asked for that ends before it begins. -/
theorem step_of_comment_of_le (h : code r.char = .comment)
    (hle : ¬ (skipLine lx.rest r.rest r.width).2 < r.width) :
    (lx.step code r).1 = .skip ∧ (lx.step code r).2.rest = (lx.behindLine r).rest ∧
      (lx.step code r).2.state = .newLine := by
  rw [step_of_comment h, if_neg hle]
  split <;> exact ⟨rfl, rfl, rfl⟩

/-- A character that does not take its line is handled alike in both texts, or it takes a line feed and is
told by it. -/
theorem step_of_readsAlike {r' : ReadChar} (hcode : CatCode.EndsLines code) (h : lx.Returned lx')
    (halike : ReadsAlike lx.rest r r') (hend : code r.char ≠ .endOfLine)
    (hcomment : code r.char ≠ .comment) :
    ∃ used, lx.rest = used ++ (lx.step code r).2.rest ∧
      ('\n' ∉ used ∧ given (lx'.step code r').1.result = given (lx.step code r).1.result ∧
          (lx.step code r).2.Returned (lx'.step code r').2 ∨
        '\n' ∈ used ∧ ∃ x y, given (lx.step code r).1.result = some x ∧
          given (lx'.step code r').1.result = some y ∧ y ≠ x) := by
  have hclean := h.clean
  generalize hchars : lx.rest = chars at halike hclean
  cases halike with
  | feed => exact absurd hcode.feed hend
  | @coded c rest width =>
    obtain ⟨hgiven, hrest⟩ := lx.given_step_of_letter ⟨'J', rest, width⟩ hcode.codedFeed
    obtain ⟨hgiven', -⟩ :=
      lx'.given_step_of_letter ⟨'M', '\n' :: withReturns rest, width⟩ hcode.codedCarriage
    have hne : 'M' ≠ 'J' := by decide
    refine ⟨[c, c, '\n'], ?_, .inr ⟨by simp, _, _, hgiven, hgiven', fun heq => ?_⟩⟩
    · rw [hrest]
      rfl
    · exact hne (TokenValue.char.inj (Except.ok.inj heq)).2
  | @other _ used _ hwhole hused =>
    have hrest : '\r' ∉ r.rest := fun hmem => hclean (hwhole ▸ List.mem_append_right _ hmem)
    by_cases hescape : code r.char = .escape
    · have hmoved : (lx.moveTo r.rest r.width).Returned (lx'.moveTo (withReturns r.rest) r.width) :=
        ⟨hrest, rfl, h.state⟩
      obtain ⟨gone, hgone, hcases⟩ := controlSequence_returned hcode hmoved
        (lx.keys.keyAt lx.offset) (lx'.keys.keyAt lx'.offset)
      obtain ⟨hresult, hafter⟩ := lx.step_of_escape r hescape
      obtain ⟨hresult', hafter'⟩ :=
        lx'.step_of_escape { r with rest := withReturns r.rest } hescape
      rw [hresult, hresult', hafter, hafter']
      refine ⟨used ++ gone, ?_, ?_⟩
      · rw [hwhole, List.append_assoc, ← hgone]
        rfl
      · rcases hcases with ⟨hfeed, hreturned, hgiven⟩ | ⟨hfeed, t, t', ht, ht', hne⟩
        · exact .inl ⟨fun hmem => (List.mem_append.1 hmem).elim hused hfeed, hgiven, hreturned⟩
        · rw [ht, ht']
          exact .inr ⟨List.mem_append_right _ hfeed, _, _, rfl, rfl,
            fun heq => hne (Except.ok.inj heq)⟩
    · obtain ⟨hleft, hgiven, hreturned⟩ := step_returned h hrest hescape hend hcomment
      exact ⟨used, by rw [hleft, hwhole], .inl ⟨hused, hgiven, hreturned⟩⟩

/-- **A stretch is read alike from both texts exactly if it does not split a line.** -/
theorem stretch_returned {s : Stretch} (hcode : CatCode.EndsLines s.code)
    (h : s.before.Returned lx') :
    ∃ s' : Stretch, s'.before = lx' ∧ s'.code = s.code ∧
      (¬ s.SplitsLine ∧ given s'.outcome.result = given s.outcome.result ∧
          s.after.Returned s'.after ∨
        s.SplitsLine ∧ ∃ x y, given s.outcome.result = some x ∧ given s'.outcome.result = some y ∧
          y ≠ x) := by
  have hclean := h.clean
  obtain ⟨r', hr', halike⟩ := readChar?_withReturns hcode hclean s.read
  rw [← h.rest] at hr'
  have hsup : s.code '\n' ≠ .superscript ∧ s.code '\r' ≠ .superscript := by
    rw [hcode.feed, hcode.carriage]
    decide
  refine ⟨⟨lx', s.code, r', hr'⟩, rfl, rfl, ?_⟩
  by_cases hline : s.TakesLine
  · -- both lexers skip the rest of the line
    have hletter : s.code s.first.char ≠ .letter := by
      rcases hline with hend | hcomment
      · rw [hend]; decide
      · rw [hcomment]; decide
    obtain ⟨hsame, hbehind⟩ := behindLine_returned hcode h s.read halike hletter
    refine .inl ⟨fun hsplit => hsplit.2 hline, ?_⟩
    rcases hline with hend | hcomment
    · have hend' : s.code r'.char = .endOfLine := hsame.trans hend
      unfold Stretch.outcome Stretch.after
      rw [step_of_endOfLine hend, step_of_endOfLine hend', h.state]
      refine ⟨?_, hbehind⟩
      cases s.before.state <;> rfl
    · have hcomment' : s.code r'.char = .comment := hsame.trans hcomment
      have hle := mt (Stretch.width_lt_iff (.inr hcomment)).1 (s.not_turnsBack hsup.1 hsup.2)
      let s' : Stretch := ⟨lx', s.code, r', hr'⟩
      have hle' := mt (Stretch.width_lt_iff (.inr hcomment')).1 (s'.not_turnsBack hsup.1 hsup.2)
      obtain ⟨houtcome, hrest, hstate⟩ := step_of_comment_of_le hcomment hle
      obtain ⟨houtcome', hrest', hstate'⟩ := step_of_comment_of_le hcomment' hle'
      unfold Stretch.outcome Stretch.after
      dsimp only
      refine ⟨by rw [houtcome, houtcome'], ?_, ?_, by rw [hstate, hstate']⟩
      · rw [hrest]
        exact hbehind.clean
      · rw [hrest, hrest']
        exact hbehind.rest
  · obtain ⟨hend, hcomment⟩ := not_or.1 hline
    obtain ⟨used, hused, hcases⟩ := step_of_readsAlike hcode h halike hend hcomment
    rcases hcases with ⟨hfeed, halike⟩ | ⟨hfeed, htold⟩
    · exact .inl ⟨mt (splitsLine_iff hline hused).1 hfeed, halike⟩
    · exact .inr ⟨(splitsLine_iff hline hused).2 hfeed, htold⟩

/-! ### Calls -/

/-- After a stretch the call goes on, or it ends with what the stretch gives. -/
theorem next_of_stretch (s : Stretch) :
    given s.outcome.result = none ∧ s.before.next s.code = s.after.next s.code ∨
      given s.outcome.result ≠ none ∧ s.before.next s.code = (s.outcome.result, s.after) := by
  have hstep : s.before.step s.code s.first = (s.outcome, s.after) := rfl
  cases ho : s.outcome with
  | token t => exact .inr ⟨nofun, next_of_token s.read (by rw [hstep, ho])⟩
  | skip => exact .inl ⟨rfl, next_of_skip s.read (by rw [hstep, ho])⟩
  | fail e => exact .inr ⟨nofun, next_of_fail s.read (by rw [hstep, ho])⟩

theorem stretches_of_none (hr : readChar? code lx.rest = none) : lx.stretches code = [] := by
  rw [stretches]
  split
  · rfl
  case h_2 hsome => cases hsome.symm.trans hr

/-- The stretches of a call, after the first one. -/
theorem stretches_of_stretch (s : Stretch) :
    s.before.stretches s.code =
      s :: if given s.outcome.result = none then s.after.stretches s.code else [] := by
  have hstep : s.before.step s.code s.first = (s.outcome, s.after) := rfl
  rw [stretches]
  split
  case h_1 hnone => cases hnone.symm.trans s.read
  case h_2 r hr =>
    obtain rfl := Option.some.inj (hr.symm.trans s.read)
    split
    case h_1 lx' hs =>
      obtain ⟨houtcome, rfl⟩ := Prod.mk.inj (hstep.symm.trans hs)
      rw [houtcome]
      rfl
    case h_2 t lx' hs =>
      rw [(Prod.mk.inj (hstep.symm.trans hs)).1]
      rfl
    case h_3 e lx' hs =>
      rw [(Prod.mk.inj (hstep.symm.trans hs)).1]
      rfl

/-- **A call is made alike on both texts, or a stretch of it splits a line and the call tells.** -/
theorem next_returned (hcode : CatCode.EndsLines code) (h : lx.Returned lx') :
    (∀ s ∈ lx.stretches code, ¬ s.SplitsLine) ∧
        given (lx'.next code).1 = given (lx.next code).1 ∧
        (lx.next code).2.Returned (lx'.next code).2 ∨
      (∃ s ∈ lx.stretches code, s.SplitsLine) ∧
        ∃ x y, given (lx.next code).1 = some x ∧ given (lx'.next code).1 = some y ∧ y ≠ x := by
  induction hn : byteSize lx.rest using Nat.strongRecOn generalizing lx lx' with
  | ind n ih =>
    cases hr : readChar? code lx.rest with
    | none =>
      have hr' : readChar? code lx'.rest = none := by
        rw [h.rest, eq_nil_of_readChar?_eq_none hr]
        rfl
      rw [next_of_none hr, next_of_none hr', stretches_of_none hr]
      exact .inl ⟨nofun, rfl, h⟩
    | some r =>
      let s : Stretch := ⟨lx, code, r, hr⟩
      have hstretches : lx.stretches code = _ := stretches_of_stretch s
      obtain ⟨s', rfl, hcode', hcases⟩ := stretch_returned (s := s) hcode h
      have hnext' := next_of_stretch s'
      rw [hcode'] at hnext'
      rcases hcases with ⟨hwhole, hgiven, hafter⟩ | ⟨hsplit, x, y, hx, hy, hne⟩
      · rw [hgiven] at hnext'
        rcases next_of_stretch s with ⟨hskip, hnext⟩ | ⟨htold, hnext⟩
        · -- neither call has given anything yet
          have hnext : lx.next code = s.after.next code := hnext
          have hnext' : s'.before.next code = s'.after.next code :=
            hnext'.elim And.right fun h => absurd hskip h.1
          have hlt : byteSize s.after.rest < n := hn ▸ (advances_step hr).byteSize_lt
          rw [if_pos hskip] at hstretches
          rw [hnext, hnext', hstretches]
          rcases ih _ hlt hafter rfl with ⟨hall, hsame⟩ | ⟨⟨s₁, hs₁, hsplit⟩, htold⟩
          · exact .inl ⟨List.forall_mem_cons.2 ⟨hwhole, hall⟩, hsame⟩
          · exact .inr ⟨⟨s₁, List.mem_cons_of_mem _ hs₁, hsplit⟩, htold⟩
        · -- both calls end here
          have hnext : lx.next code = (s.outcome.result, s.after) := hnext
          have hnext' : s'.before.next code = (s'.outcome.result, s'.after) :=
            hnext'.elim (fun h => absurd h.1 htold) And.right
          rw [if_neg htold] at hstretches
          rw [hnext, hnext', hstretches]
          exact .inl ⟨List.forall_mem_singleton.2 hwhole, hgiven, hafter⟩
      · -- the calls end with different tokens
        have hnext : lx.next code = (s.outcome.result, s.after) :=
          (next_of_stretch s).elim (fun h => absurd h.1 (by rw [hx]; exact nofun)) And.right
        have hnext' : s'.before.next code = (s'.outcome.result, s'.after) :=
          hnext'.elim (fun h => absurd h.1 (by rw [hy]; exact nofun)) And.right
        rw [hnext, hnext', hstretches]
        exact .inr ⟨⟨s, List.mem_cons_self, hsplit⟩, x, y, hx, hy, hne⟩

/-! ### Whole texts -/

/-- What a source still gives begins with what the next call gives. -/
theorem map_unkeyed_items (lx : Lexer) (code : Char → CatCode) :
    (lx.items code).map Item.unkeyed =
      match given (lx.next code).1 with
      | none => []
      | some x => x :: ((lx.next code).2.items code).map Item.unkeyed := by
  cases hnext : lx.next code with
  | mk result lx' =>
    match result with
    | .ok none => rw [items_of_end hnext]; rfl
    | .ok (some t) => rw [items_of_token hnext]; rfl
    | .error e => rw [items_of_error hnext]; rfl

/-- A call that gives something takes at least one byte, and one that gives nothing leaves nothing. -/
theorem rest_next_of_given (lx : Lexer) (code : Char → CatCode) :
    (given (lx.next code).1 = none → (lx.next code).2.rest = []) ∧
      (given (lx.next code).1 ≠ none → byteSize (lx.next code).2.rest < byteSize lx.rest) := by
  cases hnext : lx.next code with
  | mk result lx' =>
    match result with
    | .ok none =>
      have hend := (lx.passes_next code).2.2
      rw [hnext] at hend
      exact ⟨fun _ => hend rfl, fun h => absurd rfl h⟩
    | .ok (some t) => exact ⟨nofun, fun _ => (advances_of_token hnext).byteSize_lt⟩
    | .error e => exact ⟨nofun, fun _ => (advances_of_error hnext).byteSize_lt⟩

/-- At the end of the source there are no more stretches. -/
theorem stretchesOf_of_end (codes : List (Char → CatCode)) (h : lx.rest = []) :
    stretchesOf codes lx = [] := by
  induction codes with
  | nil => rfl
  | cons code codes ih =>
    have hr : readChar? code lx.rest = none := by
      rw [h]
      rfl
    rw [stretchesOf, stretches_of_none hr, next_of_none hr, ih]
    rfl

/-- The stretches of all calls are those of the next one and of all calls after it. -/
theorem forall_stretchesOf_iff {p : Stretch → Prop} :
    (∀ n, ∀ s ∈ stretchesOf (List.replicate n code) lx, p s) ↔
      (∀ s ∈ lx.stretches code, p s) ∧
        ∀ n, ∀ s ∈ stretchesOf (List.replicate n code) (lx.next code).2, p s := by
  constructor
  · intro h
    refine ⟨fun s hs => h 1 s (List.mem_append_left _ hs), fun n s hs => h (n + 1) s ?_⟩
    exact List.mem_append_right _ hs
  · rintro ⟨hfirst, hrest⟩ n s hs
    cases n with
    | zero => exact nomatch hs
    | succ n => exact (List.mem_append.1 hs).elim (hfirst s) (hrest n s)

/-- **Line feeds end lines like carriage returns with line feeds, exactly as long as no stretch splits a
line.** This holds whatever is left to read, as long as it has no carriage return of its own. -/
theorem items_returned_iff (hcode : CatCode.EndsLines code) (h : lx.Returned lx') :
    (lx'.items code).map Item.unkeyed = (lx.items code).map Item.unkeyed ↔
      ∀ n, ∀ s ∈ stretchesOf (List.replicate n code) lx, ¬ s.SplitsLine := by
  induction hn : byteSize lx.rest using Nat.strongRecOn generalizing lx lx' with
  | ind n ih =>
    rw [forall_stretchesOf_iff, map_unkeyed_items lx, map_unkeyed_items lx']
    obtain ⟨hend, hlt⟩ := lx.rest_next_of_given code
    rcases next_returned hcode h with ⟨hall, hgiven, hafter⟩ | ⟨⟨s, hs, hsplit⟩, x, y, hx, hy, hne⟩
    · rw [hgiven]
      cases hx : given (lx.next code).1 with
      | none =>
        refine iff_of_true rfl ⟨hall, fun k s hs => ?_⟩
        rw [stretchesOf_of_end _ (hend hx)] at hs
        exact nomatch hs
      | some x =>
        have hless : byteSize (lx.next code).2.rest < n := hn ▸ hlt (by rw [hx]; exact nofun)
        have hrest := ih _ hless hafter rfl
        exact ⟨fun heq => ⟨hall, hrest.1 (List.cons.inj heq).2⟩,
          fun hsplits => congrArg (x :: ·) (hrest.2 hsplits.2)⟩
    · rw [hx, hy]
      exact iff_of_false (fun heq => hne (List.cons.inj heq).1) fun hsplits => hsplits.1 s hs hsplit

/-- **Texts with either end of line give the same tokens exactly if no stretch splits a line.** For every
text without carriage returns, under the categories that hold as long as none is assigned, putting a
carriage return in front of each line feed changes neither the tokens nor the failures, nor their order,
if no line feed is read as a name, in a name, or as a code; and if one is, it changes them. -/
theorem items_withReturns_iff {content : List Char} (hcontent : '\r' ∉ content)
    (keys keys' : KeyRange) (retain retain' : Bool) :
    ((start (withReturns content) keys' retain').items CatCode.ofChar).map Item.unkeyed =
        ((start content keys retain).items CatCode.ofChar).map Item.unkeyed ↔
      ∀ n, ∀ s ∈ stretchesOf (List.replicate n CatCode.ofChar) (start content keys retain),
        ¬ s.SplitsLine :=
  items_returned_iff CatCode.endsLines_ofChar ⟨hcontent, rfl, rfl⟩

/-- An escape character before the end of a line tells a carriage return from a line feed. -/
theorem items_withReturns_ne :
    '\r' ∉ ['\\', '\n', 'x'] ∧
      ((start ['\\', '\r', '\n', 'x'] .empty false).items CatCode.ofChar).map Item.unkeyed ≠
        ((start ['\\', '\n', 'x'] .empty false).items CatCode.ofChar).map Item.unkeyed := by
  have hcontent : '\r' ∉ ['\\', '\n', 'x'] := by decide
  let lx : Lexer := start ['\\', '\n', 'x'] .empty false
  have hr : readChar? CatCode.ofChar lx.rest = some ⟨'\\', ['\n', 'x'], 1⟩ :=
    readChar?_of_ne (by decide) _
  let s : Stretch := ⟨lx, CatCode.ofChar, _, hr⟩
  have hline : ¬ s.TakesLine := by
    show ¬ (CatCode.ofChar '\\' = .endOfLine ∨ CatCode.ofChar '\\' = .comment)
    decide
  have hused : s.before.rest = ['\\', '\n'] ++ s.after.rest := rfl
  have hsplit : s.SplitsLine := (splitsLine_iff hline hused).2 (by decide)
  refine ⟨hcontent, fun heq => ?_⟩
  exact (items_withReturns_iff hcontent .empty .empty false false).1 heq 1 s
    (List.mem_append_left _ (mem_stretches hr)) hsplit

end Lexer

end Gullet
