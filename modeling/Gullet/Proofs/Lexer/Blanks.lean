import Gullet.Proofs.Lexer.Rereading
import Gullet.Proofs.Lexer.Stretches
import Mathlib.Data.List.Chain

/-!
# Blanks between tokens

Whether a blank counts is decided by the token before it. After a space, a control word, a control
sequence that is named by a blank, and a paragraph break, blanks are skipped, and so they are at the start
of a source; after any other token a blank is a space. This holds whatever the categories are and however
they change between the calls: what carries it is that blanks begin to count only with a token, and that
the state in which a token leaves the lexer can be told from the token.
-/

namespace Gullet

/-- The value takes the blanks that follow it, where characters have the given categories: it is a space,
a paragraph break, a control word, or a control sequence that is named by a blank. -/
def TokenValue.TakesBlanks (code : Char → CatCode) : TokenValue → Prop
  | .char category _ => category = .space
  | .command (.active _) => False
  | .command (.controlSequence name) =>
    name = "par" ∨ (name ≠ "" ∧ ∀ c ∈ name.toList, code c = .letter) ∨
      ∃ c, name = c.toString ∧ code c = .space

namespace Lexer

variable {code : Char → CatCode} {codes : List (Char → CatCode)} {lx lx' : Lexer} {r : ReadChar}
  {t : Token}

/-! ### One token -/

/-- A control sequence that is named by neither a letter nor a blank takes no blanks. -/
theorem not_takesBlanks_of_symbol {c : Char} (hletter : code c ≠ .letter) (hspace : code c ≠ .space) :
    ¬ TokenValue.TakesBlanks code (.controlSequence c.toString) := by
  rintro (hpar | ⟨-, hletters⟩ | ⟨c', hname, hc'⟩)
  · have hchars : [c] = ['p', 'a', 'r'] := by simpa using congrArg String.toList hpar
    cases hchars
  · exact hletter (hletters c (by simp))
  · have hchars : [c] = [c'] := by simpa using congrArg String.toList hname
    obtain rfl := List.head_eq_of_cons_eq hchars
    exact hspace hc'

theorem takeLetters_letters (code : Char → CatCode) (chars : List Char) :
    ∀ c ∈ (takeLetters code chars).1, code c = .letter := by
  fun_induction takeLetters code chars with
  | case1 => exact List.forall_mem_nil _
  | case2 chars r hr hcode hlt letters rest width heq ih =>
    rw [heq] at ih
    exact List.forall_mem_cons.2 ⟨hcode, ih⟩
  | case3 => exact List.forall_mem_nil _

/-- Whether blanks count after a control sequence can be told from its name. -/
theorem countsBlanks_controlSequence {key : SourceKey}
    (h : lx.controlSequence code key = (.ok t, lx')) :
    (lx'.countsBlanks = true ↔ ¬ t.value.TakesBlanks code) ∧ t.value.isSpace = false := by
  unfold controlSequence at h
  split at h
  · cases h
  case h_2 first hfirst =>
    split at h
    case h_1 hletter =>
      cases h
      have hword : ∀ c ∈ (String.ofList (first.char :: (takeLetters code first.rest).1)).toList,
          code c = .letter := by
        rw [String.toList_ofList]
        exact List.forall_mem_cons.2 ⟨hletter, takeLetters_letters code first.rest⟩
      exact ⟨iff_of_false nofun fun h => h (.inr (.inl ⟨by simp, hword⟩)), rfl⟩
    case h_2 hspace =>
      cases h
      exact ⟨iff_of_false nofun fun h => h (.inr (.inr ⟨first.char, rfl, hspace⟩)), rfl⟩
    case h_3 hletter hspace =>
      cases h
      exact ⟨iff_of_true rfl (not_takesBlanks_of_symbol hletter hspace), rfl⟩

/-- Whether blanks count after a token can be told from the token. It is a space only if they counted
before, and then it is a blank. -/
theorem countsBlanks_of_token (h : lx.step code r = (.token t, lx')) :
    (lx'.countsBlanks = true ↔ ¬ t.value.TakesBlanks code) ∧
      (t.value.isSpace = true → lx.countsBlanks = true ∧ t.value = .char .space ' ') := by
  rcases token_of_step h with ⟨-, hname⟩ | ⟨hv, hbefore, hafter⟩ | ⟨hv, hafter⟩ | ⟨hv, hspace, hafter⟩
  · obtain ⟨hcounts, hnone⟩ := countsBlanks_controlSequence hname
    exact ⟨hcounts, fun hspace => absurd hspace (Bool.eq_false_iff.1 hnone)⟩
  · rw [hv, hafter]
    exact ⟨iff_of_false nofun fun h => h rfl, fun _ => ⟨hbefore, rfl⟩⟩
  · rw [hv, hafter]
    exact ⟨iff_of_false nofun fun h => h (.inl rfl), nofun⟩
  · rw [hafter]
    rcases TokenValue.eq_of_ofChar? hv with ⟨category, hcode, hv⟩ | ⟨-, hv⟩
    · have hcategory : category ≠ .space := by
        rintro rfl
        exact hspace hcode.symm
      rw [hv]
      refine ⟨iff_of_true rfl hcategory, fun h => ?_⟩
      obtain ⟨c, hc⟩ := TokenValue.eq_space h
      cases hc
      exact absurd rfl hcategory
    · rw [hv]
      exact ⟨iff_of_true rfl id, nofun⟩

/-! ### One call -/

/-- What is told from the token that a call gives: the characters that it skips before do not make blanks
count. -/
theorem countsBlanks_next (h : lx.next code = (.ok (some t), lx')) :
    (lx'.countsBlanks = true ↔ ¬ t.value.TakesBlanks code) ∧
      (t.value.isSpace = true → lx.countsBlanks = true ∧ t.value = .char .space ' ') := by
  fun_induction Lexer.next lx code with
  | case1 => cases h
  | case2 lx r hr t' after hs =>
    cases h
    exact countsBlanks_of_token hs
  | case3 => cases h
  | case4 lx r hr after hs hlt ih =>
    obtain ⟨hafter, hspace⟩ := ih h
    exact ⟨hafter, fun ht => ⟨countsBlanks_step hs (by simp) (hspace ht).1, (hspace ht).2⟩⟩

/-- A call that gives no token does not make blanks count. -/
theorem countsBlanks_next_of_no_token (h : ∀ t, (lx.next code).1 ≠ .ok (some t))
    (hcounts : (lx.next code).2.countsBlanks = true) : lx.countsBlanks = true := by
  fun_induction Lexer.next lx code with
  | case1 => exact hcounts
  | case2 lx r hr t lx' hs => exact absurd rfl (h t)
  | case3 lx r hr e lx' hs => exact countsBlanks_step hs (by simp) hcounts
  | case4 lx r hr lx' hs hlt ih => exact countsBlanks_step hs (by simp) (ih h hcounts)

/-- Where blanks count, one that comes next is given as a space. -/
theorem next_of_blank (hr : readChar? code lx.rest = some r) (hblank : code r.char = .space)
    (hcounts : lx.countsBlanks = true) :
    ∃ key, (lx.next code).1 = .ok (some (.char .space ' ' key)) := by
  have hstep : (lx.step code r).1 = .token (.char .space ' ' (lx.keys.keyAt lx.offset)) := by
    unfold step
    rw [hblank]
    dsimp only
    rw [if_pos (of_decide_eq_true hcounts)]
  exact ⟨_, congrArg Prod.fst (next_of_token hr (Prod.ext hstep rfl))⟩

/-! ### The calls of a source -/

/-- The tokens that calls give which are made one after the other, each with the categories of its
call. -/
def tokensOf : List (Char → CatCode) → Lexer → List ((Char → CatCode) × Token)
  | [], _ => []
  | code :: codes, lx =>
    match lx.next code with
    | (.ok (some t), lx') => (code, t) :: tokensOf codes lx'
    | (.ok none, lx') | (.error _, lx') => tokensOf codes lx'

theorem tokensOf_of_token (h : lx.next code = (.ok (some t), lx')) :
    tokensOf (code :: codes) lx = (code, t) :: tokensOf codes lx' := by
  rw [tokensOf, h]

theorem tokensOf_of_no_token (h : ∀ t, (lx.next code).1 ≠ .ok (some t)) :
    tokensOf (code :: codes) lx = tokensOf codes (lx.next code).2 := by
  rw [tokensOf]
  split
  case h_1 t lx' hnext => exact absurd (congrArg Prod.fst hnext) (h t)
  case h_2 lx' hnext => rw [hnext]
  case h_3 e lx' hnext => rw [hnext]

/-- Where blanks do not count, the next token is no space. -/
theorem head?_tokensOf (hcounts : lx.countsBlanks = false) :
    ∀ given ∈ (tokensOf codes lx).head?, given.2.value.isSpace = false := by
  induction codes generalizing lx with
  | nil => exact nofun
  | cons code codes ih =>
    by_cases h : ∃ t, (lx.next code).1 = .ok (some t)
    · obtain ⟨t, ht⟩ := h
      rw [tokensOf_of_token (Prod.ext ht rfl)]
      rintro given ⟨⟩
      refine Bool.eq_false_iff.2 fun hspace => ?_
      have hbefore := ((countsBlanks_next (Prod.ext ht rfl)).2 hspace).1
      rw [hcounts] at hbefore
      cases hbefore
    · have hnone : ∀ t, (lx.next code).1 ≠ .ok (some t) := fun t ht => h ⟨t, ht⟩
      rw [tokensOf_of_no_token hnone]
      refine ih (Bool.eq_false_iff.2 fun hafter => ?_)
      have hbefore := countsBlanks_next_of_no_token hnone hafter
      rw [hcounts] at hbefore
      cases hbefore

/-- No space directly follows a token that takes blanks. -/
theorem isChain_tokensOf (codes : List (Char → CatCode)) (lx : Lexer) :
    (tokensOf codes lx).IsChain fun before after =>
      before.2.value.TakesBlanks before.1 → after.2.value.isSpace = false := by
  induction codes generalizing lx with
  | nil => exact .nil
  | cons code codes ih =>
    by_cases h : ∃ t, (lx.next code).1 = .ok (some t)
    · obtain ⟨t, ht⟩ := h
      rw [tokensOf_of_token (Prod.ext ht rfl), List.isChain_cons]
      refine ⟨fun after hafter htakes => head?_tokensOf ?_ after hafter, ih _⟩
      exact Bool.eq_false_iff.2 fun hcounts =>
        (countsBlanks_next (Prod.ext ht rfl)).1.1 hcounts htakes
    · rw [tokensOf_of_no_token fun t ht => h ⟨t, ht⟩]
      exact ih _

/-- A space is a blank. -/
theorem value_of_mem_tokensOf {given : (Char → CatCode) × Token} (h : given ∈ tokensOf codes lx)
    (hspace : given.2.value.isSpace = true) : given.2.value = .char .space ' ' := by
  induction codes generalizing lx with
  | nil => exact nomatch h
  | cons code codes ih =>
    by_cases ht : ∃ t, (lx.next code).1 = .ok (some t)
    · obtain ⟨t, ht⟩ := ht
      rw [tokensOf_of_token (Prod.ext ht rfl)] at h
      rcases List.mem_cons.1 h with rfl | h
      · exact ((countsBlanks_next (Prod.ext ht rfl)).2 hspace).2
      · exact ih h
    · rw [tokensOf_of_no_token fun t h => ht ⟨t, h⟩] at h
      exact ih h

/-- **Which token a space can follow.** Whatever the source is, and with whatever categories each call is
made: the first token is no space; no space directly follows a space, a control word, a control sequence
that is named by a blank, or a paragraph break; and every space is the character blank. After any other
token a blank that comes next is given as a space. -/
theorem spaces_between_tokens (content : List Char) (keys : KeyRange) (retain : Bool)
    (codes : List (Char → CatCode)) :
    (∀ first ∈ (tokensOf codes (start content keys retain)).head?, first.2.value.isSpace = false) ∧
    ((tokensOf codes (start content keys retain)).IsChain fun before after =>
      before.2.value.TakesBlanks before.1 → after.2.value.isSpace = false) ∧
    (∀ given ∈ tokensOf codes (start content keys retain),
      given.2.value.isSpace = true → given.2.value = .char .space ' ') ∧
    ∀ code code' t lx' r,
      (afterCalls codes (start content keys retain)).next code = (.ok (some t), lx') →
      ¬ t.value.TakesBlanks code → readChar? code' lx'.rest = some r → code' r.char = .space →
        ∃ key, (lx'.next code').1 = .ok (some (.char .space ' ' key)) := by
  refine ⟨head?_tokensOf rfl, isChain_tokensOf codes _, fun _ => value_of_mem_tokensOf, ?_⟩
  intro code code' t lx' r hnext htakes hr hblank
  exact next_of_blank hr hblank ((countsBlanks_next hnext).1.2 htakes)

/-- A blank after a letter is a space, and one after a control word is skipped. -/
theorem spaces_between_tokens_word :
    let code : Char → CatCode :=
      fun c => if c = '\\' then .escape else if c = ' ' then .space else .letter
    let lx := start ['a', ' ', '\\', 'b', ' ', 'c'] .empty false
    let a : Token := .char .letter 'a' none
    let blank : Token := .char .space ' ' none
    let b : Token := .controlSequence "b" none
    let c : Token := .char .letter 'c' none
    tokensOf [code, code, code, code] lx = [(code, a), (code, blank), (code, b), (code, c)] ∧
      b.value.TakesBlanks code ∧ c.value.isSpace = false ∧
      ¬ a.value.TakesBlanks code ∧
      ∃ key, ((lx.next code).2.next code).1 = .ok (some (.char .space ' ' key)) := by
  intro code lx a blank b c
  have hgiven : tokensOf [code, code, code, code] lx =
      [(code, a), (code, blank), (code, b), (code, c)] := by with_unfolding_all rfl
  have hword : b.value.TakesBlanks code := .inr (.inl ⟨by decide, by simp [code]⟩)
  have ha : ¬ a.value.TakesBlanks code := fun h => CharCategory.noConfusion h
  obtain ⟨-, hchain, -, hblank⟩ := spaces_between_tokens
    ['a', ' ', '\\', 'b', ' ', 'c'] .empty false [code, code, code, code]
  obtain ⟨-, -, -, hspace⟩ := spaces_between_tokens ['a', ' ', '\\', 'b', ' ', 'c'] .empty false []
  rw [hgiven] at hchain
  obtain ⟨-, -, hnext⟩ : _ ∧ _ ∧ (b.value.TakesBlanks code → c.value.isSpace = false) := by
    simpa using hchain
  have ht : (lx.next code).1 = .ok (some a) := by with_unfolding_all rfl
  have hr : readChar? code (lx.next code).2.rest = some ⟨' ', ['\\', 'b', ' ', 'c'], 1⟩ := by
    with_unfolding_all rfl
  exact ⟨hgiven, hword, hnext hword, ha, hspace code code a _ _ (Prod.ext ht rfl) ha hr rfl⟩

end Lexer

end Gullet
