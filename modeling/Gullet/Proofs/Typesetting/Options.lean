import Gullet.Execution.Typesetting
import Gullet.Proofs.Lexer.Rereading
import Gullet.Proofs.Macro.Arguments
import Mathlib.Data.List.TakeWhile

/-!
# Options with values

The options of a graphic are split at the commas outside braces, and each of them is written as a text, in
which the first equals sign ends the key. A value that begins with an opening brace and ends with a closing
one loses both, whether or not they belong together. If they do, or if they are not both there, the value
is balanced again, as long as the equals sign stands outside braces; and else it is not.
-/

namespace Gullet

namespace Token

variable {t : Token} {ts us : List Token}

/-- A text is balanced if it ends at the depth at which it starts and opens groups before it closes them. -/
theorem balanced_iff : Balanced ts ↔ depth ts = 0 ∧ OpensFirst ts :=
  ⟨fun h => ⟨depth_of_balanced h, opensFirst_of_balanced h⟩, fun h => balanced_of_opensFirst h.1 h.2⟩

/-- What follows a balanced text is balanced if both together are. -/
theorem balanced_append_iff (hts : Balanced ts) : Balanced (ts ++ us) ↔ Balanced us := by
  have hsum : depth (ts ++ us) = depth us := by
    rw [depth_append, depth_of_balanced hts, Int.zero_add]
  rw [balanced_iff, balanced_iff, opensFirst_append, hsum, depth_of_balanced hts]
  simp only [Int.zero_add]
  exact and_congr_right fun _ => and_iff_right (opensFirst_of_balanced hts)

/-- Tokens that are no braces can stand behind a text, balanced or not. -/
theorem balanced_append_of_no_braces
    (h : ∀ t ∈ us, t.value.isBeginGroup = false ∧ t.value.isEndGroup = false) :
    Balanced (ts ++ us) ↔ Balanced ts := by
  rw [balanced_iff, balanced_iff, opensFirst_append_of_no_braces h, depth_append, depth_of_no_braces h,
    Int.add_zero]

/-- What stands in braces only in each of two texts, does so in both together. -/
theorem OnlyInBraces.append {v : TokenValue} (hts : OnlyInBraces v ts) (hdepth : depth ts = 0)
    (hus : OnlyInBraces v us) : OnlyInBraces v (ts ++ us) := by
  intro before t rest hsplit hv
  rcases List.append_eq_append_iff.1 hsplit with ⟨between, rfl, hbetween⟩ | ⟨between, hbetween, hrest⟩
  · rw [depth_append, hdepth, Int.zero_add]
    exact hus between t rest hbetween hv
  · cases between with
    | nil =>
      exact absurd rfl (hus [] t rest hrest.symm hv)
    | cons u between =>
      obtain ⟨rfl, -⟩ := List.cons.inj hrest
      exact hts before t between hbetween hv

/-! ### Items between commas -/

/-- The value of a comma that separates options. -/
abbrev comma : TokenValue := .char .other ','

/-- The parts are what stands between the commas outside braces. -/
inductive SplitsAtCommas : List Token → List (List Token) → Prop where
  | last {part : List Token} (hpart : Balanced part) (hfree : OnlyInBraces comma part) :
      SplitsAtCommas part [part]
  | more {part rest : List Token} {separator : Token} {parts : List (List Token)}
      (hpart : Balanced part) (hfree : OnlyInBraces comma part) (hcomma : separator.value = comma)
      (hrest : SplitsAtCommas rest parts) :
      SplitsAtCommas (part ++ separator :: rest) (part :: parts)

theorem SplitsAtCommas.exists_cons {parts : List (List Token)} (h : SplitsAtCommas ts parts) :
    ∃ part others, parts = part :: others := by
  cases h with
  | last => exact ⟨_, _, rfl⟩
  | more => exact ⟨_, _, rfl⟩

theorem SplitsAtCommas.balanced {parts : List (List Token)} (h : SplitsAtCommas ts parts) :
    ∀ part ∈ parts, Balanced part := by
  induction h with
  | last hpart => simpa using hpart
  | more hpart _ _ _ ih => exact List.forall_mem_cons.2 ⟨hpart, ih⟩

theorem SplitsAtCommas.mem {part : List Token} {parts : List (List Token)} (h : SplitsAtCommas ts parts)
    (hpart : part ∈ parts) (ht : t ∈ part) : t ∈ ts := by
  induction h with
  | last =>
    obtain rfl := List.mem_singleton.1 hpart
    exact ht
  | more _ _ _ _ ih =>
    rcases List.mem_cons.1 hpart with rfl | hlater
    · exact List.mem_append_left _ ht
    · exact List.mem_append_right _ (List.mem_cons_of_mem _ (ih hlater))

/-- A balanced text without a comma outside braces goes to the first part. -/
theorem SplitsAtCommas.prepend {part : List Token} {parts : List (List Token)}
    (h : SplitsAtCommas us (part :: parts)) (hts : Balanced ts) (hfree : OnlyInBraces comma ts) :
    SplitsAtCommas (ts ++ us) ((ts ++ part) :: parts) := by
  have hdepth := depth_of_balanced hts
  cases h with
  | last hpart hpartFree => exact .last ((balanced_append_iff hts).2 hpart) (hfree.append hdepth hpartFree)
  | more hpart hpartFree hcomma hrest =>
    rw [← List.append_assoc]
    exact .more ((balanced_append_iff hts).2 hpart) (hfree.append hdepth hpartFree) hcomma hrest

end Token

/-! ### Braces in texts -/

/-- The category of a character in a text where nothing but braces has a meaning. -/
def CharCategory.ofBrace (c : Char) : CharCategory :=
  if c = '\x7b' then .beginGroup else if c = '\x7d' then .endGroup else .other

namespace Text

/-- The tokens of a text in which nothing but braces has a meaning. -/
def braceTokens (s : List Char) : List Token := s.map fun c => .char (.ofBrace c) c none

/-- A text in which every brace has its counterpart. -/
def Balanced (s : List Char) : Prop := Token.Balanced (braceTokens s)

/-- A text that is a single group in braces. -/
def IsGroup (s : List Char) : Prop := ∃ inside, s = '\x7b' :: (inside ++ ['\x7d']) ∧ Balanced inside

variable {s s' : List Char} {c : Char}

theorem braceTokens_append (s s' : List Char) : braceTokens (s ++ s') = braceTokens s ++ braceTokens s' :=
  List.map_append

theorem no_brace_braceTokens (h : ∀ c ∈ s, c ≠ '\x7b' ∧ c ≠ '\x7d') :
    ∀ t ∈ braceTokens s, t.value.isBeginGroup = false ∧ t.value.isEndGroup = false := by
  intro t ht
  obtain ⟨c, hc, rfl⟩ := List.mem_map.1 ht
  obtain ⟨hopen, hclose⟩ := h c hc
  unfold CharCategory.ofBrace
  rw [if_neg hopen, if_neg hclose]
  exact ⟨rfl, rfl⟩

theorem balanced_append_iff (hs : Balanced s) : Balanced (s ++ s') ↔ Balanced s' := by
  unfold Balanced
  rw [braceTokens_append]
  exact Token.balanced_append_iff hs

/-- Characters that are no braces are balanced. -/
theorem balanced_of_no_braces (h : ∀ c ∈ s, c ≠ '\x7b' ∧ c ≠ '\x7d') : Balanced s :=
  Token.balanced_of_no_braces (no_brace_braceTokens h)

theorem balanced_group (hs : Balanced s) : Balanced ('\x7b' :: (s ++ ['\x7d'])) := by
  show Token.Balanced (braceTokens (['\x7b'] ++ (s ++ ['\x7d'])))
  rw [braceTokens_append, braceTokens_append]
  exact .group rfl rfl hs .nil

theorem ne_brace_of_isBlank (h : isBlank c = true) : c ≠ '\x7b' ∧ c ≠ '\x7d' := by
  constructor
  · rintro rfl
    exact absurd h (by decide)
  · rintro rfl
    exact absurd h (by decide)

/-- Blanks at the ends of a text have nothing to do with its braces. -/
theorem balanced_trim {s : String} (hs : Balanced s.toList) : Balanced (trim s).toList := by
  let front := s.toList.takeWhile isBlank
  let middle := s.toList.dropWhile isBlank
  let back := (middle.reverse.takeWhile isBlank).reverse
  have hfront : ∀ c ∈ front, c ≠ '\x7b' ∧ c ≠ '\x7d' := fun c hc =>
    ne_brace_of_isBlank (List.mem_takeWhile_imp hc)
  have hback : ∀ c ∈ back, c ≠ '\x7b' ∧ c ≠ '\x7d' := fun c hc =>
    ne_brace_of_isBlank (List.mem_takeWhile_imp (List.mem_reverse.1 hc))
  have hmiddle : Balanced middle := by
    rw [← balanced_append_iff (balanced_of_no_braces hfront), List.takeWhile_append_dropWhile]
    exact hs
  have hends : dropEndWhile isBlank middle ++ back = middle := dropEndWhile_append isBlank middle
  unfold trim
  rw [String.toList_ofList]
  unfold Balanced at hmiddle ⊢
  rw [← hends, braceTokens_append] at hmiddle
  exact (Token.balanced_append_of_no_braces (no_brace_braceTokens hback)).1 hmiddle

end Text

/-! ### Writing balanced tokens -/

/-- A character token with the category that the character has as long as none has been assigned. -/
def TokenValue.HasDefaultCode (v : TokenValue) : Prop :=
  ∃ category c, v = .char category c ∧ CatCode.ofChar c = category.code

/-! Only braces have the categories of braces. -/

theorem CatCode.ofChar_eq_beginGroup_iff (c : Char) : CatCode.ofChar c = .beginGroup ↔ c = '\x7b' := by
  refine ⟨fun h => ?_, fun h => by rw [h]; decide⟩
  unfold CatCode.ofChar at h
  rw [CatCode.Table.code_empty] at h
  unfold CatCode.defaultFor CatCode.ofAscii at h
  rw [Char.ofNat_toNat] at h
  grind

theorem CatCode.ofChar_eq_endGroup_iff (c : Char) : CatCode.ofChar c = .endGroup ↔ c = '\x7d' := by
  refine ⟨fun h => ?_, fun h => by rw [h]; decide⟩
  unfold CatCode.ofChar at h
  rw [CatCode.Table.code_empty] at h
  unfold CatCode.defaultFor CatCode.ofAscii at h
  rw [Char.ofNat_toNat] at h
  grind

namespace TokenValue

variable {v : TokenValue} {vs : List TokenValue}

theorem HasDefaultCode.of_isBeginGroup (h : v.HasDefaultCode) (hv : v.isBeginGroup = true) :
    v = .char .beginGroup '\x7b' := by
  obtain ⟨category, c, rfl, hcode⟩ := h
  cases category with
  | beginGroup => rw [(CatCode.ofChar_eq_beginGroup_iff c).1 hcode]
  | _ => cases hv

theorem HasDefaultCode.of_isEndGroup (h : v.HasDefaultCode) (hv : v.isEndGroup = true) :
    v = .char .endGroup '\x7d' := by
  obtain ⟨category, c, rfl, hcode⟩ := h
  cases category with
  | endGroup => rw [(CatCode.ofChar_eq_endGroup_iff c).1 hcode]
  | _ => cases hv

/-- What is no brace is written without braces. -/
theorem HasDefaultCode.exists_written (h : v.HasDefaultCode) (hto : v.isBeginGroup = false)
    (htc : v.isEndGroup = false) (before : Before) :
    ∃ s after, (∀ c ∈ s, c ≠ '\x7b' ∧ c ≠ '\x7d') ∧
      ∀ vs, writeAfter before (v :: vs) = s ++ writeAfter after vs := by
  obtain ⟨category, c, rfl, hcode⟩ := h
  have hopen : c ≠ '\x7b' := by
    rw [ne_eq, ← CatCode.ofChar_eq_beginGroup_iff, hcode]
    cases category with
    | beginGroup => cases hto
    | _ => decide
  have hclose : c ≠ '\x7d' := by
    rw [ne_eq, ← CatCode.ofChar_eq_endGroup_iff, hcode]
    cases category with
    | endGroup => cases htc
    | _ => decide
  by_cases hspace : category = .space
  · subst hspace
    cases before with
    | space => exact ⟨[], .space, List.forall_mem_nil _, fun _ => by rw [writeAfter, List.nil_append]⟩
    | _ =>
      refine ⟨[' '], .space, List.forall_mem_singleton.2 (by decide), fun _ => ?_⟩
      rw [writeAfter]
      · rfl
      · intro hbefore
        cases hbefore
  · by_cases hword : before = .controlWord ∧ category = .letter
    · obtain ⟨rfl, rfl⟩ := hword
      exact ⟨[' ', c], .other, by simp [hopen, hclose], fun _ => by rw [writeAfter]; rfl⟩
    · refine ⟨[c], .other, by simp [hopen, hclose], fun _ => ?_⟩
      rw [writeAfter]
      · rfl
      · exact hspace
      · exact fun _ => hspace
      · exact fun hbefore hletter => hword ⟨hbefore, hletter⟩

/-- Braces are written as they are. -/
theorem writeAfter_brace {category : CharCategory}
    (hcategory : category = .beginGroup ∨ category = .endGroup) (c : Char) (before : Before)
    (vs : List TokenValue) :
    writeAfter before (.char category c :: vs) = c :: writeAfter .other vs := by
  rcases hcategory with rfl | rfl
  · cases before <;> rfl
  · cases before <;> rfl

end TokenValue

/-- Balanced tokens are written as a balanced text, whatever is written before and behind them. -/
theorem Token.Balanced.exists_written {ts : List Token} (hts : Token.Balanced ts)
    (hcodes : ∀ t ∈ ts, t.value.HasDefaultCode) (before : TokenValue.Before) :
    ∃ s after, Text.Balanced s ∧
      ∀ vs, TokenValue.writeAfter before (ts.map Token.value ++ vs) =
        s ++ TokenValue.writeAfter after vs := by
  induction hts generalizing before with
  | nil => exact ⟨[], before, .nil, fun _ => rfl⟩
  | @token t ts hto htc _ ih =>
    obtain ⟨ht, hrest⟩ := List.forall_mem_cons.1 hcodes
    obtain ⟨s, middle, hs, hwritten⟩ := ht.exists_written hto htc before
    obtain ⟨s', after, hs', hwritten'⟩ := ih hrest middle
    refine ⟨s ++ s', after, (Text.balanced_append_iff (Text.balanced_of_no_braces hs)).2 hs', fun vs => ?_⟩
    rw [List.map_cons, List.cons_append, hwritten, hwritten', List.append_assoc]
  | @group opener closer body ts ho hc _ _ ihbody ih =>
    obtain ⟨hopener, hinside⟩ := List.forall_mem_cons.1 hcodes
    obtain ⟨hbody, hinside⟩ := List.forall_mem_append.1 hinside
    obtain ⟨hcloser, hrest⟩ := List.forall_mem_cons.1 hinside
    obtain ⟨s, middle, hs, hwritten⟩ := ihbody hbody .other
    obtain ⟨s', after, hs', hwritten'⟩ := ih hrest .other
    refine ⟨'\x7b' :: (s ++ ['\x7d']) ++ s', after,
      (Text.balanced_append_iff (Text.balanced_group hs)).2 hs', fun vs => ?_⟩
    rw [List.map_cons, List.map_append, List.map_cons, hopener.of_isBeginGroup ho, hcloser.of_isEndGroup hc,
      List.cons_append, TokenValue.writeAfter_brace (.inl rfl), List.append_assoc, List.cons_append,
      hwritten, TokenValue.writeAfter_brace (.inr rfl), hwritten']
    simp

/-- Balanced tokens are written as a balanced text. -/
theorem Token.balanced_write {ts : List Token} (hts : Token.Balanced ts)
    (hcodes : ∀ t ∈ ts, t.value.HasDefaultCode) : Text.Balanced (Token.write ts).toList := by
  obtain ⟨s, after, hs, hwritten⟩ := hts.exists_written hcodes .other
  have hwhole := hwritten []
  rw [List.append_nil, TokenValue.writeAfter, List.append_nil] at hwhole
  unfold Token.write TokenValue.write
  rw [String.toList_ofList, hwhole]
  exact hs

namespace Typesetting

open Token (Balanced OnlyInBraces SplitsAtCommas comma)

variable {t : Token} {ts us : List Token} {parts : List (List Token)}

/-- The first part with tokens in front of it. -/
theorem splitAtCommas_of_ne (depth : Nat) (h : t.value ≠ comma ∨ depth ≠ 0) {part : List Token}
    {depth' : Nat} (hdepth : (if t.value.isBeginGroup then depth + 1
      else if t.value.isEndGroup then depth - 1 else depth) = depth')
    (hus : splitAtCommas depth' us = part :: parts) :
    splitAtCommas depth (t :: us) = (t :: part) :: parts := by
  unfold splitAtCommas
  rw [if_neg (fun hboth => h.elim (absurd hboth.1) (absurd hboth.2)), hdepth]
  dsimp only
  rw [hus]

/-- An opening brace goes to the first part, and behind it the text is one level deeper. -/
theorem splitAtCommas_opener {depth : Nat} {part : List Token} (ht : t.value.isBeginGroup = true)
    (hus : splitAtCommas (depth + 1) us = part :: parts) :
    splitAtCommas depth (t :: us) = (t :: part) :: parts := by
  have hne : t.value ≠ comma := fun h => by
    rw [h] at ht
    cases ht
  exact splitAtCommas_of_ne depth (.inl hne) (by rw [ht]; rfl) hus

/-- A closing brace in braces goes to the first part, too. -/
theorem splitAtCommas_closer {depth : Nat} {part : List Token} (ht : t.value.isEndGroup = true)
    (hus : splitAtCommas depth us = part :: parts) :
    splitAtCommas (depth + 1) (t :: us) = (t :: part) :: parts := by
  refine splitAtCommas_of_ne (depth + 1) (.inr (Nat.succ_ne_zero depth)) ?_ hus
  rw [TokenValue.isBeginGroup_of_isEndGroup ht, ht]
  rfl

/-- In braces nothing is split. -/
theorem splitAtCommas_in_braces (hts : Balanced ts) (depth : Nat) {part : List Token}
    (hus : splitAtCommas (depth + 1) us = part :: parts) :
    splitAtCommas (depth + 1) (ts ++ us) = (ts ++ part) :: parts := by
  induction hts generalizing depth us part with
  | nil => exact hus
  | token hto htc _ ih =>
    refine splitAtCommas_of_ne _ (.inr (Nat.succ_ne_zero depth)) ?_ (ih depth hus)
    rw [hto, htc]
    rfl
  | @group opener closer body ts ho hc _ _ ihbody ih =>
    have hbody := ihbody (depth + 1) (splitAtCommas_closer hc (ih depth hus))
    rw [List.cons_append, List.cons_append, List.append_assoc, List.append_assoc]
    exact splitAtCommas_opener ho hbody

/-- **A balanced text is split at the commas outside braces.** -/
theorem splitsAtCommas_of_balanced (hts : Balanced ts) : SplitsAtCommas ts (splitAtCommas 0 ts) := by
  induction hts with
  | nil => exact .last .nil (Token.onlyInBraces_of_ne (List.forall_mem_nil _))
  | @token t ts hto htc _ ih =>
    by_cases hcomma : t.value = comma
    · have hsplit : splitAtCommas 0 (t :: ts) = [] :: splitAtCommas 0 ts := by
        rw [splitAtCommas, if_pos ⟨hcomma, rfl⟩]
      rw [hsplit]
      have hfree : OnlyInBraces comma [] := Token.onlyInBraces_of_ne (List.forall_mem_nil _)
      exact .more .nil hfree hcomma ih
    · have hfree : OnlyInBraces comma [t] := Token.onlyInBraces_of_ne (by simpa using hcomma)
      obtain ⟨part, parts, hparts⟩ := ih.exists_cons
      rw [splitAtCommas_of_ne 0 (.inl hcomma) (by rw [hto, htc]; rfl) hparts]
      rw [hparts] at ih
      exact ih.prepend (.token hto htc .nil) hfree
  | @group opener closer body ts ho hc hbody _ _ ih =>
    obtain ⟨part, parts, hparts⟩ := ih.exists_cons
    have hbody' := splitAtCommas_in_braces hbody 0 (splitAtCommas_closer hc hparts)
    have hgroup : Balanced (opener :: (body ++ [closer])) := .group ho hc hbody .nil
    have hfree := Token.onlyInBraces_group (v := comma) rfl rfl ho hc hbody
    rw [splitAtCommas_opener ho hbody']
    rw [hparts] at ih
    have hwhole := ih.prepend hgroup hfree
    simpa only [List.cons_append, List.append_assoc, List.nil_append] using hwhole

/-! ### Keys and values -/

/-- The text is an option with the given key, and with the given text behind the first equals sign. -/
inductive IsOption : List Char → List Char → List Char → Prop where
  | bare {key : List Char} (hkey : '=' ∉ key) : IsOption key key []
  | valued {key given : List Char} (hkey : '=' ∉ key) : IsOption (key ++ '=' :: given) key given

/-- What a value is that is written as the given text. -/
inductive IsValue : List Char → List Char → Prop where
  /-- A single group in braces loses them. -/
  | group {inside : List Char} (hinside : Text.Balanced inside) :
      IsValue ('\x7b' :: (inside ++ ['\x7d'])) inside
  /-- What does not both begin and end with a brace stays as it is. -/
  | plain {given : List Char} (h : ∀ inside, given ≠ '\x7b' :: (inside ++ ['\x7d'])) : IsValue given given
  /-- Braces at the beginning and at the end are lost even if they do not belong together. -/
  | torn {inside : List Char} (hinside : ¬ Text.Balanced inside) :
      IsValue ('\x7b' :: (inside ++ ['\x7d'])) inside

/-- The text begins with an opening brace and ends with a closing one that does not belong to it. -/
def IsTorn (given : List Char) : Prop :=
  (∃ inside, given = '\x7b' :: (inside ++ ['\x7d'])) ∧ ¬ Text.IsGroup given

variable {text key given value : List Char}

theorem isOption_span (text : List Char) :
    IsOption text (text.takeWhile (· ≠ '=')) (text.dropWhile (· ≠ '=')).tail := by
  have hkey : '=' ∉ text.takeWhile (· ≠ '=') := fun h => by simpa using List.mem_takeWhile_imp h
  have hspan := List.takeWhile_append_dropWhile (p := (· ≠ '=')) (l := text)
  have hhead := List.head?_dropWhile_not (· ≠ '=') text
  generalize text.takeWhile (· ≠ '=') = key at hkey hspan ⊢
  cases hrest : text.dropWhile (· ≠ '=') with
  | nil =>
    rw [hrest, List.append_nil] at hspan
    subst hspan
    exact .bare hkey
  | cons c given =>
    rw [hrest] at hspan hhead
    obtain rfl : c = '=' := by simpa using hhead
    rw [← hspan]
    exact .valued hkey

theorem isValue_withoutValueBraces (given : List Char) : IsValue given (withoutValueBraces given) := by
  unfold withoutValueBraces
  split
  · rename_i rest
    split
    · rename_i hlast
      obtain ⟨inside, rfl⟩ := List.getLast?_eq_some_iff.1 hlast
      rw [List.dropLast_concat]
      by_cases hinside : Text.Balanced inside
      · exact .group hinside
      · exact .torn hinside
    · rename_i hlast
      refine .plain fun inside h => hlast ?_
      rw [(List.cons.inj h).2, List.getLast?_concat]
  · rename_i hne
    exact .plain fun inside h => hne _ h

/-- A text that begins and ends with a brace is a single group if what stands between them is balanced. -/
theorem isGroup_iff {inside : List Char} :
    Text.IsGroup ('\x7b' :: (inside ++ ['\x7d'])) ↔ Text.Balanced inside := by
  refine ⟨?_, fun h => ⟨inside, rfl, h⟩⟩
  rintro ⟨inside', heq, hinside⟩
  obtain ⟨rfl, -⟩ := List.append_inj' (List.cons.inj heq).2 rfl
  exact hinside

/-- The value of a balanced text is balanced, unless the braces that it has lost do not belong together. -/
theorem IsValue.balanced_iff (h : IsValue given value) (hgiven : Text.Balanced given) :
    Text.Balanced value ↔ ¬ IsTorn given := by
  unfold IsTorn
  cases h with
  | @group inside hinside => exact iff_of_true hinside fun h => h.2 (isGroup_iff.2 hinside)
  | plain h => exact iff_of_true hgiven fun ⟨⟨inside, heq⟩, _⟩ => h inside heq
  | torn hinside => exact iff_of_false hinside fun h => h ⟨⟨_, rfl⟩, mt isGroup_iff.1 hinside⟩

/-- What stands behind an equals sign outside braces is balanced. -/
theorem IsOption.balanced (h : IsOption text key given) (htext : Text.Balanced text)
    (hkey : Text.Balanced key) : Text.Balanced given := by
  cases h with
  | bare => exact .nil
  | valued =>
    have hsign : Text.Balanced ['='] := Text.balanced_of_no_braces (List.forall_mem_singleton.2 (by decide))
    exact (Text.balanced_append_iff hsign).1 ((Text.balanced_append_iff hkey).1 htext)

/-- **Options are split at the commas outside braces, and each value is what stands behind the first equals
sign of an option.** Braces around a value are removed if it begins with an opening one and ends with a
closing one; so if the equals sign stands outside braces, the value is balanced exactly if these two belong
together or are not both there. -/
theorem options_of_balanced (hts : Balanced ts) (hcodes : ∀ t ∈ ts, t.value.HasDefaultCode) :
    ∃ parts, SplitsAtCommas ts parts ∧
      options ts = parts.filterMap (fun part => keyValue? (Token.write part)) ∧
      ∀ part ∈ parts, (Text.trim (Token.write part) = "" ∧ keyValue? (Token.write part) = none) ∨
        ∃ key given value, IsOption (Text.trim (Token.write part)).toList key given ∧
          IsValue (Text.trim (String.ofList given)).toList value ∧
          keyValue? (Token.write part) = some (Text.trim (String.ofList key), String.ofList value) ∧
          (Text.Balanced key →
            (Text.Balanced value ↔ ¬ IsTorn (Text.trim (String.ofList given)).toList)) := by
  have hsplit := splitsAtCommas_of_balanced hts
  refine ⟨_, hsplit, rfl, fun part hpart => ?_⟩
  have hcodes' : ∀ t ∈ part, t.value.HasDefaultCode := fun t ht => hcodes t (hsplit.mem hpart ht)
  have htext : Text.Balanced (Text.trim (Token.write part)).toList :=
    Text.balanced_trim (Token.balanced_write (hsplit.balanced part hpart) hcodes')
  unfold keyValue?
  generalize Text.trim (Token.write part) = text at htext
  by_cases hempty : text = ""
  · subst hempty
    exact .inl ⟨rfl, rfl⟩
  · have hoption := isOption_span text.toList
    have hvalue := isValue_withoutValueBraces
      (Text.trim (String.ofList (text.toList.dropWhile (· ≠ '=')).tail)).toList
    refine .inr ⟨_, _, _, hoption, hvalue, ?_, fun hkey => hvalue.balanced_iff ?_⟩
    · rw [if_neg (by simpa using hempty)]
    · refine Text.balanced_trim ?_
      rw [String.toList_ofList]
      exact hoption.balanced htext hkey

/-- Of the option `k={1}{2}` the value loses the first brace and the last one. -/
theorem options_of_balanced_torn :
    let ts : List Token := [.char .letter 'k' none, .char .other '=' none,
      .char .beginGroup '\x7b' none, .char .other '1' none, .char .endGroup '\x7d' none,
      .char .beginGroup '\x7b' none, .char .other '2' none, .char .endGroup '\x7d' none]
    Balanced ts ∧ (∀ t ∈ ts, t.value.HasDefaultCode) ∧
      ∃ parts, SplitsAtCommas ts parts ∧
        options ts = parts.filterMap (fun part => keyValue? (Token.write part)) ∧
        options ts = [("k", "1\x7d\x7b2")] := by
  intro ts
  have hgroup (c : Char) {rest : List Token} (hrest : Balanced rest) :
      Balanced (.char .beginGroup '\x7b' none ::
        ([.char .other c none] ++ .char .endGroup '\x7d' none :: rest)) :=
    .group rfl rfl (.token rfl rfl .nil) hrest
  have hts : Balanced ts := .token rfl rfl (.token rfl rfl (hgroup '1' (hgroup '2' .nil)))
  have hcodes : ∀ t ∈ ts, t.value.HasDefaultCode := by
    have hcode (category : CharCategory) (c : Char) (h : CatCode.ofChar c = category.code) :
        (Token.char category c none).value.HasDefaultCode := ⟨category, c, rfl, h⟩
    simp only [ts, List.forall_mem_cons]
    exact ⟨hcode _ _ (by decide), hcode _ _ (by decide), hcode _ _ (by decide), hcode _ _ (by decide),
      hcode _ _ (by decide), hcode _ _ (by decide), hcode _ _ (by decide), hcode _ _ (by decide),
      List.forall_mem_nil _⟩
  obtain ⟨parts, hsplit, hoptions, -⟩ := options_of_balanced hts hcodes
  exact ⟨hts, hcodes, parts, hsplit, hoptions, by decide +kernel⟩

end Typesetting

end Gullet
