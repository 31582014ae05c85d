import Gullet.Execution.Definition
import Gullet.Proofs.Taking.Arguments

/-!
# How heavy tokens are

Some commands put tokens in front of the input that are not the ones they took. Here is a weight that
goes down all the same. It counts first how often `\end` can still be run: once for each token `\end`,
and twice for each brace that begins a label `end`, of which `\begin` makes `\end`, and which `\end` hands
on. Only then does it count the tokens, of which a closing brace is the lightest, since some commands
add one.
-/

namespace Gullet

/-! ### The weight -/

/-- The text of a label can be spelled by `s` and tokens that come next. -/
def closesEnd (s : String) : List Token → Bool
  | [] => false
  | t :: rest =>
    t.value.isEndGroup && Text.trim s = "end" || closesEnd (s ++ t.value.spelling) rest

/-- How often a token can lead to `\end` being run, given what follows it. -/
def endingsOf (t : Token) (rest : List Token) : Nat :=
  if t.value = .controlSequence "end" then 1
  else if t.value.isBeginGroup && closesEnd "" rest then 2
  else 0

/-- How often tokens can lead to `\end` being run. -/
def endings : List Token → Nat
  | [] => 0
  | t :: rest => endingsOf t rest + endings rest

/-- How many tokens there are, where a closing brace counts half. -/
def bulk : List Token → Nat
  | [] => 0
  | t :: rest => (if t.value.isEndGroup then 1 else 2) + bulk rest

/-- Whatever follows, it is heavier after the tokens `us` than after the tokens `ps`. -/
def Lighter (ps us : List Token) : Prop :=
  ∀ rest, endings (ps ++ rest) < endings (us ++ rest) ∨
    endings (ps ++ rest) ≤ endings (us ++ rest) ∧ bulk ps < bulk us

@[simp] theorem bulk_nil : bulk [] = 0 := rfl

@[simp] theorem bulk_cons (t : Token) (ts : List Token) :
    bulk (t :: ts) = (if t.value.isEndGroup then 1 else 2) + bulk ts := rfl

@[simp] theorem bulk_append (ts us : List Token) : bulk (ts ++ us) = bulk ts + bulk us := by
  induction ts with
  | nil => exact (Nat.zero_add _).symm
  | cons t ts ih => rw [List.cons_append, bulk_cons, ih, bulk_cons, Nat.add_assoc]

theorem endings_append_le (ts rest : List Token) : endings rest ≤ endings (ts ++ rest) := by
  induction ts with
  | nil => exact Nat.le_refl _
  | cons t ts ih => exact Nat.le_trans ih (Nat.le_add_left _ _)

/-- A token that is neither `\end` nor an opening brace does not lead to `\end`. -/
theorem endingsOf_eq_zero {t : Token} (hend : t.value ≠ .controlSequence "end")
    (ho : t.value.isBeginGroup = false) (rest : List Token) : endingsOf t rest = 0 := by
  unfold endingsOf
  rw [if_neg hend, ho]
  rfl

/-- A character token does not lead to `\end` unless it is an opening brace. -/
theorem endingsOf_char (category : CharCategory) (h : category ≠ .beginGroup) (c : Char)
    (key : SourceKey) (rest : List Token) : endingsOf (.char category c key) rest = 0 := by
  have hvalue : (Token.char category c key).value ≠ .controlSequence "end" := TokenValue.noConfusion
  refine endingsOf_eq_zero hvalue ?_ rest
  cases category with
  | beginGroup => exact absurd rfl h
  | _ => rfl

/-- A token that is no opening brace leads to the same, whatever follows it. -/
theorem endingsOf_eq_of_isBeginGroup {t : Token} (ho : t.value.isBeginGroup = false)
    (rest rest' : List Token) : endingsOf t rest = endingsOf t rest' := by
  unfold endingsOf
  rw [ho]
  rfl

theorem Lighter.of_append {ps us : List Token} (before : List Token) (h : Lighter ps us) :
    Lighter ps (before ++ us) := by
  intro rest
  have hle := endings_append_le before (us ++ rest)
  rw [List.append_assoc, bulk_append]
  rcases h rest with hlt | ⟨hle', hlt⟩
  · exact .inl (by omega)
  · exact .inr ⟨by omega, by omega⟩

/-- Nothing is lighter than something. -/
theorem lighter_nil {us : List Token} (hus : us ≠ []) : Lighter [] us := by
  intro rest
  refine .inr ⟨endings_append_le us rest, ?_⟩
  cases us with
  | nil => exact absurd rfl hus
  | cons t us =>
    rw [bulk_nil, bulk_cons]
    split <;> omega

/-! ### Spelling the label `end` -/

/-- A text with a character that is no blank and not in `end` is not `end`. -/
theorem trim_ne_end {s : String} {c : Char} (h : c ∈ s.toList) (hblank : Text.isBlank c = false)
    (hc : c ∉ "end".toList) : Text.trim s ≠ "end" := by
  intro hs
  have hmem := Text.mem_trim h hblank
  rw [hs] at hmem
  exact hc hmem

/-- No label `end` can be spelled after a brace. -/
theorem closesEnd_of_mem {s : String} (h : '\x7d' ∈ s.toList) (ts : List Token) :
    closesEnd s ts = false := by
  induction ts generalizing s with
  | nil => rfl
  | cons t rest ih =>
    have hs := trim_ne_end h (by decide) (by decide)
    have hrest : '\x7d' ∈ (s ++ t.value.spelling).toList := by
      rw [String.toList_append]
      exact List.mem_append_left _ h
    unfold closesEnd
    rw [ih hrest, decide_eq_false hs, Bool.and_false]
    rfl

theorem mem_append_brace (s : String) (key : SourceKey) :
    '\x7d' ∈ (s ++ (Token.char .endGroup '\x7d' key).value.spelling).toList := by
  rw [String.toList_append]
  exact List.mem_append_right _ (by simp [Token.char, TokenValue.spelling])

/-- A label is closed by the brace after its text. -/
theorem closesEnd_of_label {s : String} {body : List Token} {closer : Token}
    (hc : closer.value.isEndGroup = true)
    (hs : Text.trim (s ++ String.join (body.map fun t => t.value.spelling)) = "end")
    (rest : List Token) : closesEnd s (body ++ closer :: rest) = true := by
  induction body generalizing s with
  | nil =>
    rw [List.map_nil, String.join_nil, String.append_empty] at hs
    rw [List.nil_append, closesEnd, hc, decide_eq_true hs]
    rfl
  | cons t body ih =>
    rw [List.map_cons, String.join_cons, ← String.append_assoc] at hs
    rw [List.cons_append, closesEnd, ih hs, Bool.or_true]

/-- The brace `}` is put in place of another closing brace. -/
theorem closesEnd_replace {s : String} {body : List Token} {closer : Token}
    (hc : closer.value.isEndGroup = true) (key : SourceKey) {rest : List Token}
    (h : closesEnd s (body ++ .char .endGroup '\x7d' key :: rest) = true) :
    closesEnd s (body ++ closer :: rest) = true := by
  induction body generalizing s with
  | nil =>
    rw [List.nil_append, closesEnd, closesEnd_of_mem (mem_append_brace s key), Bool.or_false] at h
    rw [List.nil_append, closesEnd, hc, Bool.true_and]
    rw [Bool.and_eq_true] at h
    rw [h.2, Bool.true_or]
  | cons t body ih =>
    rw [List.cons_append, closesEnd, Bool.or_eq_true] at h ⊢
    exact h.imp id ih

theorem endings_replace {closer : Token} (hc : closer.value.isEndGroup = true) (key : SourceKey)
    (body rest : List Token) :
    endings (body ++ .char .endGroup '\x7d' key :: rest) ≤ endings (body ++ closer :: rest) := by
  induction body with
  | nil =>
    rw [List.nil_append, List.nil_append, endings, endings, endingsOf_char .endGroup (by decide)]
    exact Nat.add_le_add_right (Nat.zero_le _) _
  | cons t body ih =>
    have ht : endingsOf t (body ++ .char .endGroup '\x7d' key :: rest) ≤
        endingsOf t (body ++ closer :: rest) := by
      unfold endingsOf
      split
      · exact Nat.le_refl _
      · split
        case isTrue h =>
          rw [Bool.and_eq_true] at h
          rw [h.1, closesEnd_replace hc key h.2]
          exact Nat.le_refl _
        case isFalse => exact Nat.zero_le _
    exact Nat.add_le_add ht ih

/-! ### Arguments that are put back as a group -/

/-- An argument with a closing brace is lighter than the argument with the command that took it. -/
theorem lighter_group {t : Token} {ts body : List Token} (ht : t.value.isEndGroup = false)
    (h : IsArgument ts body) (key : SourceKey) :
    Lighter (body ++ [.char .endGroup '\x7d' key]) (t :: ts) := by
  cases h with
  | @group before opener closer body ho hc =>
    have hgroup : Lighter (body ++ [.char .endGroup '\x7d' key]) (opener :: (body ++ [closer])) := by
      refine fun rest => .inr ⟨?_, ?_⟩
      · have hle := endings_replace hc key body rest
        have hopener : opener :: (body ++ [closer]) ++ rest = [opener] ++ (body ++ closer :: rest) := by
          simp
        rw [hopener, List.append_assoc]
        exact Nat.le_trans hle (endings_append_le [opener] _)
      · have hopener := (TokenValue.category_of_isBeginGroup ho).1
        have hclose : (Token.char .endGroup '\x7d' key).value.isEndGroup = true := rfl
        simp [hc, hopener, hclose]
    exact hgroup.of_append (t :: before)
  | @single before s ho hc =>
    -- one token stays one token, and the command makes room for the closing brace
    have hbulk : bulk ([s] ++ [.char .endGroup '\x7d' key]) < bulk (t :: (before ++ [s])) := by
      have hclose : (Token.char .endGroup '\x7d' key).value.isEndGroup = true := rfl
      simp [ht, hc, hclose]
      omega
    intro rest
    refine .inr ⟨?_, hbulk⟩
    have hclose : endingsOf (.char .endGroup '\x7d' key) rest = 0 :=
      endingsOf_char .endGroup (by decide) _ _ _
    have hpush : endings ([s] ++ [.char .endGroup '\x7d' key] ++ rest) = endings (s :: rest) := by
      show endingsOf s _ + (endingsOf _ rest + endings rest) = endingsOf s rest + endings rest
      rw [hclose, Nat.zero_add, endingsOf_eq_of_isBeginGroup ho]
    have hle := endings_append_le (t :: before) (s :: rest)
    have htook : t :: (before ++ [s]) ++ rest = (t :: before) ++ s :: rest := by simp
    rw [hpush, htook]
    exact hle

/-! ### Names of environments -/

theorem trim_of_isLabel {ts : List Token} {name : String} (h : IsLabel ts name) :
    Text.trim name = name := by
  obtain ⟨body, -, rfl⟩ := h
  exact Text.trim_trim _

/-- A single token does not spell `end`. -/
theorem trim_spelling_ne_end (v : TokenValue) : Text.trim v.spelling ≠ "end" := by
  have hchar (c : Char) : Text.trim c.toString ≠ "end" := by
    intro h
    have hlength := Text.length_trim_le c.toString
    rw [h] at hlength
    simp at hlength
  cases v with
  | char category c => exact hchar c
  | command ref =>
    cases ref with
    | active c => exact hchar c
    | controlSequence name =>
      refine trim_ne_end (c := '\\') ?_ (by decide) (by decide)
      show '\\' ∈ ("\\" ++ name).toList
      rw [String.toList_append]
      exact List.mem_append_left _ (by decide)

/-- The brace of a label `end` can make `\end` run twice. -/
theorem endingsOf_opener {opener closer : Token} {body : List Token}
    (ho : opener.value.isBeginGroup = true) (hc : closer.value.isEndGroup = true)
    (hbody : Reader.labelText body = "end") (rest : List Token) :
    endingsOf opener (body ++ closer :: rest) = 2 := by
  have hcloses : closesEnd "" (body ++ closer :: rest) = true := by
    refine closesEnd_of_label hc ?_ rest
    rw [String.empty_append]
    exact hbody
  have hne : opener.value ≠ .controlSequence "end" := by
    intro hv
    rw [hv] at ho
    exact nomatch ho
  unfold endingsOf
  rw [if_neg hne, ho, hcloses]
  rfl

/-- What a label leads to when it is taken: a label `end` can make `\end` run twice. -/
theorem endings_label {ts : List Token} {name : String} (h : IsLabel ts name) (rest : List Token) :
    (if name = "end" then 2 else 0) + endings rest ≤ endings (ts ++ rest) := by
  split
  case isFalse =>
    rw [Nat.zero_add]
    exact endings_append_le ts rest
  case isTrue hname =>
    obtain ⟨body, harg, hbody⟩ := h
    rw [hname] at hbody
    cases harg with
    | @group before opener closer body ho hc =>
      have htook : before ++ opener :: (body ++ [closer]) ++ rest =
          before ++ opener :: (body ++ closer :: rest) := by simp
      have hrest : endings rest ≤ endings (body ++ closer :: rest) := by
        have hle := endings_append_le (body ++ [closer]) rest
        rwa [List.append_assoc, List.singleton_append] at hle
      rw [htook]
      refine Nat.le_trans ?_ (endings_append_le before _)
      rw [endings, endingsOf_opener ho hc hbody]
      exact Nat.add_le_add_left hrest 2
    | @single before s ho hc =>
      -- a single token cannot spell the label
      refine absurd hbody ?_
      unfold Reader.labelText
      rw [List.map_singleton, String.join_cons, String.join_nil, String.append_empty]
      exact trim_spelling_ne_end _

/-- A label is a token at least. -/
theorem one_le_bulk {ts : List Token} {name : String} (h : IsLabel ts name) : 1 ≤ bulk ts := by
  obtain ⟨body, harg, -⟩ := h
  cases harg with
  | @group before opener closer body ho hc =>
    simp [hc]
    omega
  | @single before s ho hc => simp [hc]

/-- The command that begins an environment is `\end` for the environment `end`. -/
theorem endings_beginning (name : String) (key : SourceKey) (rest : List Token) :
    endings (⟨.command (Definition.beginning name), key⟩ :: rest) =
      (if name = "end" then 1 else 0) + endings rest := by
  rw [endings]
  unfold endingsOf
  by_cases hname : name = "end"
  · simp [hname, Definition.beginning, TokenValue.controlSequence]
  · simp [hname, Definition.beginning, TokenValue.controlSequence, TokenValue.isBeginGroup]

/-- The command that begins an environment is lighter than the label with the command that took it. -/
theorem lighter_beginning {t : Token} {ts : List Token} {name : String}
    (ht : t.value.isEndGroup = false) (h : IsLabel ts name) (key : SourceKey) :
    Lighter [⟨.command (Definition.beginning name), key⟩] (t :: ts) := by
  intro rest
  have hlabel := endings_label h rest
  have hbefore := endings_append_le [t] (ts ++ rest)
  have htook : t :: ts ++ rest = [t] ++ (ts ++ rest) := rfl
  rw [htook, List.singleton_append, endings_beginning]
  by_cases hname : name = "end"
  · -- the label counts twice, and the command that it names counts once
    rw [if_pos hname] at hlabel
    rw [if_pos hname]
    exact .inl (by omega)
  · rw [if_neg hname] at hlabel
    rw [if_neg hname]
    refine .inr ⟨by omega, ?_⟩
    have hbody := one_le_bulk h
    have hcommand : TokenValue.isEndGroup (.command (Definition.beginning name)) = false := rfl
    simp only [bulk_cons, bulk_nil, ht, hcommand, Bool.false_eq_true, if_false]
    omega

/-! ### What `\end` hands on -/

theorem endings_of_isPlainText {ts : List Token} (h : Token.IsPlainText ts) (rest : List Token) :
    endings (ts ++ rest) = endings rest := by
  induction ts with
  | nil => rfl
  | cons t ts ih =>
    obtain ⟨⟨category, c, hv⟩, ho, -⟩ := h t List.mem_cons_self
    have hne : t.value ≠ .controlSequence "end" := by
      rw [hv]
      exact TokenValue.noConfusion
    rw [List.cons_append, endings, endingsOf_eq_zero hne ho, Nat.zero_add]
    exact ih fun u hu => h u (List.mem_cons_of_mem t hu)

/-- Plain text that is followed by a brace spells no other label than its own. -/
theorem trim_of_closesEnd {s : String} {body : List Token} (hbody : Token.IsPlainText body)
    (key : SourceKey) {rest : List Token}
    (h : closesEnd s (body ++ .char .endGroup '\x7d' key :: rest) = true) :
    Text.trim (s ++ String.join (body.map fun t => t.value.spelling)) = "end" := by
  induction body generalizing s with
  | nil =>
    rw [List.nil_append, closesEnd, closesEnd_of_mem (mem_append_brace s key), Bool.or_false,
      Bool.and_eq_true] at h
    rw [List.map_nil, String.join_nil, String.append_empty]
    exact of_decide_eq_true h.2
  | cons t body ih =>
    have ht := (hbody t List.mem_cons_self).2.2
    rw [List.cons_append, closesEnd, ht, Bool.false_and, Bool.false_or] at h
    rw [List.map_cons, String.join_cons, ← String.append_assoc]
    exact ih (fun u hu => hbody u (List.mem_cons_of_mem t hu)) h

/-- What `\end` puts in front of the input in any case: the name of the environment is handed on. -/
def handedOn (name : String) (key : SourceKey) : List Token :=
  [.controlSequence "@endenvironment" key, .char .beginGroup '\x7b' key] ++
    (Token.ofText name key ++ [.char .endGroup '\x7d' key])

/-- The name that is handed on may be `end` again. -/
theorem endings_handedOn {name : String} (hname : Text.trim name = name) (key : SourceKey)
    (rest : List Token) :
    endings (handedOn name key ++ rest) ≤ (if name = "end" then 2 else 0) + endings rest := by
  have hclose : endings (Token.char .endGroup '\x7d' key :: rest) = endings rest := by
    rw [endings, endingsOf_char .endGroup (by decide), Nat.zero_add]
  have hopener : endingsOf (.char .beginGroup '\x7b' key)
      (Token.ofText name key ++ .char .endGroup '\x7d' key :: rest) ≤ if name = "end" then 2 else 0 := by
    unfold endingsOf
    rw [if_neg TokenValue.noConfusion]
    split
    case isTrue hcloses =>
      rw [Bool.and_eq_true] at hcloses
      have htrim := trim_of_closesEnd (Token.isPlainText_ofText name key) key hcloses.2
      rw [String.empty_append, Token.join_spelling_ofText, hname] at htrim
      exact Nat.le_of_eq (if_pos htrim).symm
    case isFalse => exact Nat.zero_le _
  have hcommand : (Token.controlSequence "@endenvironment" key).value ≠ .controlSequence "end" := by
    simp [Token.controlSequence]
  have htokens : handedOn name key ++ rest = .controlSequence "@endenvironment" key ::
      .char .beginGroup '\x7b' key ::
        (Token.ofText name key ++ .char .endGroup '\x7d' key :: rest) := by
    simp [handedOn]
  rw [htokens, endings, endingsOf_eq_zero hcommand rfl, Nat.zero_add, endings,
    endings_of_isPlainText (Token.isPlainText_ofText name key), hclose]
  exact Nat.add_le_add_right hopener _

theorem ending_ne_end {name : String} (h : name ≠ "") :
    TokenValue.command (Definition.ending name) ≠ .controlSequence "end" := by
  intro hv
  injection hv with hv
  injection hv with hv
  refine h (String.toList_injective ?_)
  simpa using congrArg String.toList hv

/-- What `\end` puts in front of the input is lighter than `\end` with its label. -/
theorem lighter_ending {ts : List Token} {name : String} {key : SourceKey} (h : IsLabel ts name)
    (hname : name ≠ "") {ender : List Token}
    (hender : ender = [] ∨ ender = [⟨.command (Definition.ending name), key⟩]) (k : SourceKey) :
    Lighter (ender ++ handedOn name key) (⟨.controlSequence "end", k⟩ :: ts) := by
  intro rest
  refine .inl ?_
  have hlabel := endings_label h rest
  have hend : endingsOf ⟨.controlSequence "end", k⟩ (ts ++ rest) = 1 := if_pos rfl
  have hpush : endings (ender ++ handedOn name key ++ rest) = endings (handedOn name key ++ rest) := by
    rcases hender with rfl | rfl
    · rfl
    · rw [List.append_assoc, List.singleton_append, endings,
        endingsOf_eq_zero (ending_ne_end hname) rfl, Nat.zero_add]
  have hle := endings_handedOn (trim_of_isLabel h) key rest
  rw [hpush, List.cons_append, endings, hend]
  omega

end Gullet
