import Mathlib.Data.List.TakeWhile
import Gullet.Proofs.Stream.Expanding
import Gullet.Proofs.Stream.Remaining
import Gullet.Reader.Keyword

/-!
# Reading spaces and keywords

Where the input that is left is known, so is what is left of it when a space has been taken, when spaces
have been skipped, or when a keyword has been looked for. A keyword is taken if its characters come next.
If one of them does not, all that was read for it is put back. Of a stream of characters one or the other
is always known.
-/

namespace Gullet

open Lexer (Item)

variable {x : Expander} {m₀ m m' : Machine} {t : Token} {ts spaces : List Token}
  {items rest : List Item} {p : TokenValue → Prop}

/-! ### The next token -/

/-- The items end here, or go on with a token that is not expanded and whose value has the property. -/
def Machine.Meets (m : Machine) (p : TokenValue → Prop) : List Item → Prop
  | [] => True
  | .ok t :: _ => m.LeavesAlone t ∧ p t.value
  | .error _ :: _ => False

theorem Machine.leavesAlone_of_char {category : CharCategory} {c : Char}
    (hv : t.value = .char category c) : m.LeavesAlone t := by
  intro ref href
  rw [hv] at href
  cases href

theorem Machine.leavesAlone_of_isSpace (ht : t.value.isSpace = true) : m.LeavesAlone t := by
  obtain ⟨c, hv⟩ := TokenValue.eq_space ht
  exact leavesAlone_of_char hv

/-- A token that is not expanded is given as it is. -/
theorem Machine.Before.expanded (h : m₀.Before items m') (ht : m₀.LeavesAlone t)
    (hraw : Stream.raw m = (.ok (some t), m')) : Stream.expanded x m = (.ok (some t), m') := by
  refine Run.expanded_of_leavesAlone hraw ?_
  rw [h.same]
  exact ht

/-! ### Spaces -/

namespace Stream

theorem takeSpace_of_space (ht : t.value.isSpace = true) (h : expanded x m = (.ok (some t), m')) :
    (expanded x).takeSpace m = (.ok true, m') := by
  unfold takeSpace
  rw [Run.bind_of_ok (Run.take?_of_some h (if_pos ht))]
  rfl

theorem takeSpace_of_other (ht : t.value.isSpace = false) (h : expanded x m = (.ok (some t), m')) :
    (expanded x).takeSpace m = (.ok false, m'.push [t]) := by
  unfold takeSpace
  rw [Run.bind_of_ok (Run.take?_of_none h (by rw [ht]; rfl))]
  rfl

theorem takeSpace_of_end (h : expanded x m = (.ok none, m')) :
    (expanded x).takeSpace m = (.ok false, m') := by
  unfold takeSpace take?
  rw [bind_assoc, Run.bind_of_ok h]
  rfl

/-- What is left of a stream when a space at its front has been taken. -/
def afterSpace : List Item → List Item
  | .ok t :: rest => if t.value.isSpace then rest else .ok t :: rest
  | items => items

theorem afterSpace_cons (t : Token) (rest : List Item) :
    afterSpace (.ok t :: rest) = if t.value.isSpace then rest else .ok t :: rest := rfl

end Stream

/-- The machine after what was read last has been put back, unless it is a space. -/
def Machine.returning (m : Machine) : Option Token → Machine
  | some t => if t.value.isSpace then m else m.push [t]
  | none => m

theorem Machine.returning_some (m : Machine) (t : Token) :
    m.returning (some t) = if t.value.isSpace then m else m.push [t] := rfl

namespace Machine.Before

/-- What comes next is read, and put back unless it is a space. -/
theorem next (h : m₀.Before items m) (hmeets : m₀.Meets p items) :
    ∃ next m', Stream.expanded x m = (.ok next, m') ∧ (∀ t ∈ next, p t.value) ∧
      m₀.Before (Stream.afterSpace items) (m'.returning next) := by
  match items, hmeets with
  | [], _ =>
    obtain ⟨m', hend, h'⟩ := h.raw_end
    exact ⟨none, m', Run.expanded_of_none hend, by simp, h'⟩
  | .ok t :: rest, ⟨halone, hp⟩ =>
    obtain ⟨m', hraw, h'⟩ := h.raw
    refine ⟨some t, m', h'.expanded halone hraw, fun _ ht => ?_, ?_⟩
    · obtain rfl := Option.mem_some_iff.1 ht
      exact hp
    · rw [Stream.afterSpace_cons, returning_some]
      cases hspace : t.value.isSpace with
      | true => exact h'
      | false => exact h'.push [t]

/-- A space is taken if one comes next. -/
theorem takeSpace (h : m₀.Before items m) (hmeets : m₀.Meets p items) :
    ∃ blank m', (Stream.expanded x).takeSpace m = (.ok blank, m') ∧
      m₀.Before (Stream.afterSpace items) m' := by
  obtain ⟨next, m', hnext, -, h'⟩ := h.next (x := x) hmeets
  cases next with
  | none => exact ⟨_, m', Stream.takeSpace_of_end hnext, h'⟩
  | some t =>
    rw [returning_some] at h'
    cases hspace : t.value.isSpace with
    | true =>
      rw [hspace] at h'
      exact ⟨_, m', Stream.takeSpace_of_space hspace hnext, h'⟩
    | false =>
      rw [hspace] at h'
      exact ⟨_, _, Stream.takeSpace_of_other hspace hnext, h'⟩

/-- Spaces are skipped up to what is none. -/
theorem skipSpaces (h : m₀.Before (spaces.map .ok ++ items) m)
    (hspaces : ∀ t ∈ spaces, t.value.isSpace = true) (hmeets : m₀.Meets (·.isSpace = false) items) :
    ∃ m', (Stream.expanded x).skipSpaces m = (.ok ⟨⟩, m') ∧ m₀.Before items m' := by
  obtain ⟨m₁, hskip, h₁⟩ := h.supplies
  have hfeeds : (Stream.expanded x).Feeds spaces m m₁ :=
    Stream.feeds_of_raw (fun t ht _ _ hraw => Run.expanded_of_leavesAlone hraw
      (leavesAlone_of_isSpace (hspaces t ht))) h.steady hskip
  rw [Run.skipSpaces_over hspaces hfeeds]
  match items, hmeets with
  | [], _ =>
    obtain ⟨m', hend, h'⟩ := h₁.raw_end
    have hnone := Stream.takeSpace_of_end (Run.expanded_of_none (x := x) hend)
    exact ⟨m', Run.loop_of_answer (Run.bind_of_ok hnone), h'⟩
  | .ok t :: rest, ⟨halone, hspace⟩ =>
    obtain ⟨m₂, hraw, h₂⟩ := h₁.raw
    exact ⟨_, Run.skipSpaces_of_some (h₂.expanded halone hraw) hspace, h₂.push [t]⟩

/-- What comes next is looked at, and stays where it is. -/
theorem peek (h : m₀.Before items m) (hmeets : m₀.Meets p items) :
    ∃ next m', (Stream.expanded x).peek m = (.ok next, m') ∧ Stream.head items = .ok next ∧
      m₀.Before items m' := by
  match items, hmeets with
  | [], _ =>
    obtain ⟨m', hend, h'⟩ := h.raw_end
    exact ⟨none, m', Run.bind_of_ok (Run.expanded_of_none hend), rfl, h'⟩
  | .ok t :: rest, ⟨halone, _⟩ =>
    obtain ⟨m₁, hraw, h₁⟩ := h.raw
    refine ⟨some t, m₁.push [t], ?_, rfl, h₁.push [t]⟩
    refine (Run.bind_of_ok (h₁.expanded halone hraw)).trans ?_
    exact Run.bind_of_ok (Run.pushBack_eval t m₁)

/-! ### Keywords -/

/-- Tokens that are put back, the last of them first, come next. -/
theorem putBack (h : m₀.Before items m) (ts : List Token) :
    ∃ m', ts.forM Run.pushBack m = (.ok ⟨⟩, m') ∧ m₀.Before (ts.reverse.map .ok ++ items) m' := by
  induction ts generalizing items m with
  | nil => exact ⟨m, rfl, h⟩
  | cons t ts ih =>
    obtain ⟨m', hback, h'⟩ := ih (h.push [t])
    refine ⟨m', (Run.bind_of_ok (Run.pushBack_eval t m)).trans hback, ?_⟩
    rw [List.reverse_cons, List.map_append, List.append_assoc]
    exact h'

end Machine.Before

theorem Stream.matchesKeyword_iff {want : Char} {v : TokenValue} :
    matchesKeyword want v = true ↔
      ∃ c, (v = .char .letter c ∨ v = .char .other c) ∧ c.toLower = want.toLower := by
  unfold matchesKeyword
  split
  · simp
  · simp
  · rename_i hletter hother
    simp only [Bool.false_eq_true, false_iff]
    rintro ⟨c, rfl | rfl, -⟩
    · exact hletter c rfl
    · exact hother c rfl

theorem Stream.leavesAlone_of_matchesKeyword {want : Char}
    (h : matchesKeyword want t.value = true) : m.LeavesAlone t := by
  obtain ⟨c, hv | hv, -⟩ := matchesKeyword_iff.1 h
  · exact Machine.leavesAlone_of_char hv
  · exact Machine.leavesAlone_of_char hv

/-- The tokens are the characters of the word. -/
def Stream.Spells (word : List Char) (ts : List Token) : Prop :=
  List.Forall₂ (fun want t => matchesKeyword want t.value = true) word ts

/-- The characters of the word do not come next: the input ends before the last of them, or goes on with
another token in place of one. The tokens that show this are not expanded. -/
def Machine.Lacks (m : Machine) : List Char → List Item → Prop
  | [], _ => False
  | _ :: _, [] => True
  | want :: word, .ok t :: items =>
    m.LeavesAlone t ∧ (Stream.matchesKeyword want t.value = true → m.Lacks word items)
  | _ :: _, .error _ :: _ => False

/-- A word that is spelled starts with a character, which is no space. -/
theorem Stream.Spells.exists_char {word : List Char} (h : Spells word ts) (hword : word ≠ []) :
    ∃ category c key us, ts = ⟨.char category c, key⟩ :: us ∧
      (TokenValue.char category c).isSpace = false := by
  cases h with
  | nil => exact absurd rfl hword
  | @cons want t _ us hmatch =>
    obtain ⟨v, key⟩ := t
    obtain ⟨c, rfl | rfl, -⟩ := matchesKeyword_iff.1 hmatch
    · exact ⟨_, c, key, us, rfl, rfl⟩
    · exact ⟨_, c, key, us, rfl, rfl⟩

/-- Where a word is spelled, no space comes next. -/
theorem Stream.Spells.meets {word : List Char} (h : Spells word ts) (hword : word ≠ []) :
    m.Meets (·.isSpace = false) (ts.map .ok ++ rest) := by
  obtain ⟨_, _, _, _, rfl, hspace⟩ := h.exists_char hword
  exact ⟨Machine.leavesAlone_of_char rfl, hspace⟩

/-- Where a word is spelled, another one is lacking, unless one starts with the other. -/
theorem Stream.Spells.lacks {word other : List Char} (h : Spells word ts)
    (hword : ¬ word.map Char.toLower <+: other.map Char.toLower)
    (hother : ¬ other.map Char.toLower <+: word.map Char.toLower) :
    m.Lacks other (ts.map .ok ++ rest) := by
  induction h generalizing other with
  | nil => exact absurd List.nil_prefix hword
  | @cons want t word ts hmatch _ ih =>
    cases other with
    | nil => exact absurd List.nil_prefix hother
    | cons want' other =>
      refine ⟨leavesAlone_of_matchesKeyword hmatch, fun hmatch' => ?_⟩
      obtain ⟨c, hv, hc⟩ := matchesKeyword_iff.1 hmatch
      obtain ⟨c', hv', hc'⟩ := matchesKeyword_iff.1 hmatch'
      obtain rfl : c = c' := by
        rcases hv with hv | hv <;> rcases hv' with hv' | hv' <;> rw [hv] at hv' <;> cases hv' <;> rfl
      -- the first character is that of both words, so what is lacking is in the rest of the other
      rw [List.map_cons, List.map_cons, List.cons_prefix_cons] at hword hother
      have hsame := hc.symm.trans hc'
      exact ih (fun hprefix => hword ⟨hsame, hprefix⟩) fun hprefix => hother ⟨hsame.symm, hprefix⟩

namespace Machine.Before

variable {word : List Char}

theorem takeKeyword_spelled (h : m₀.Before (ts.map .ok ++ rest) m) (hts : Stream.Spells word ts)
    (taken : List Token) :
    ∃ m', Stream.takeKeyword (Stream.expanded x) word taken m = (.ok true, m') ∧ m₀.Before rest m' := by
  induction hts generalizing m taken with
  | nil => exact ⟨m, rfl, h⟩
  | @cons want t word ts hmatch _ ih =>
    obtain ⟨m₁, hraw, h₁⟩ := h.raw
    obtain ⟨m', htake, h'⟩ := ih h₁ (t :: taken)
    refine ⟨m', ?_, h'⟩
    unfold Stream.takeKeyword
    rw [Run.bind_of_ok (h₁.expanded (Stream.leavesAlone_of_matchesKeyword hmatch) hraw)]
    dsimp only
    rw [if_pos hmatch, htake]

theorem takeKeyword_lacking (h : m₀.Before items m) (hlacks : m₀.Lacks word items)
    (taken : List Token) :
    ∃ m', Stream.takeKeyword (Stream.expanded x) word taken m = (.ok false, m') ∧
      m₀.Before (taken.reverse.map .ok ++ items) m' := by
  induction word generalizing items m taken with
  | nil => exact hlacks.elim
  | cons want word ih =>
    match items, hlacks with
    | [], _ =>
      obtain ⟨m₁, hend, h₁⟩ := h.raw_end
      obtain ⟨m', hback, h'⟩ := h₁.putBack taken
      refine ⟨m', ?_, h'⟩
      unfold Stream.takeKeyword
      rw [Run.bind_of_ok (Run.expanded_of_none hend)]
      exact Run.bind_of_ok hback
    | .ok t :: items, ⟨halone, hlacks⟩ =>
      obtain ⟨m₁, hraw, h₁⟩ := h.raw
      have hback (ts : List Item) :
          (t :: taken).reverse.map Except.ok ++ ts = taken.reverse.map .ok ++ .ok t :: ts := by
        rw [List.reverse_cons, List.map_append, List.append_assoc]
        rfl
      unfold Stream.takeKeyword
      rw [Run.bind_of_ok (h₁.expanded halone hraw)]
      dsimp only
      cases hmatch : Stream.matchesKeyword want t.value with
      | true =>
        obtain ⟨m', htake, h'⟩ := ih h₁ (hlacks hmatch) (t :: taken)
        exact ⟨m', htake, hback items ▸ h'⟩
      | false =>
        obtain ⟨m', hput, h'⟩ := h₁.putBack (t :: taken)
        exact ⟨m', Run.bind_of_ok hput, hback items ▸ h'⟩

/-- A keyword that comes next is taken, with the spaces before it. -/
theorem keyword_spelled (spaces : List Token) (keyword : String)
    (h : m₀.Before (spaces.map .ok ++ (ts.map .ok ++ rest)) m)
    (hspaces : ∀ t ∈ spaces, t.value.isSpace = true)
    (hmeets : m₀.Meets (·.isSpace = false) (ts.map .ok ++ rest))
    (hts : Stream.Spells keyword.toList ts) :
    ∃ m', (Stream.expanded x).keyword keyword m = (.ok true, m') ∧ m₀.Before rest m' := by
  obtain ⟨m₁, hskip, h₁⟩ := h.skipSpaces (x := x) hspaces hmeets
  obtain ⟨m', htake, h'⟩ := h₁.takeKeyword_spelled hts []
  exact ⟨m', (Run.bind_of_ok hskip).trans htake, h'⟩

/-- Of a keyword that does not come next, only the spaces before it are taken. -/
theorem keyword_lacking (spaces : List Token) (keyword : String)
    (h : m₀.Before (spaces.map .ok ++ items) m) (hspaces : ∀ t ∈ spaces, t.value.isSpace = true)
    (hmeets : m₀.Meets (·.isSpace = false) items)
    (hlacks : m₀.Lacks keyword.toList items) :
    ∃ m', (Stream.expanded x).keyword keyword m = (.ok false, m') ∧ m₀.Before items m' := by
  obtain ⟨m₁, hskip, h₁⟩ := h.skipSpaces (x := x) hspaces hmeets
  obtain ⟨m', htake, h'⟩ := h₁.takeKeyword_lacking hlacks []
  exact ⟨m', (Run.bind_of_ok hskip).trans htake, h'⟩

end Machine.Before

/-! ### Keywords in a stream of tokens

Where nothing that is left to read is expanded, as in a stream of characters, a keyword either comes next
or is lacking. -/

/-- A letter or other character that is the wanted one up to the case of ASCII letters. -/
def TokenValue.Writes (want : Char) (v : TokenValue) : Prop :=
  ∃ c, (v = .char .letter c ∨ v = .char .other c) ∧ c.toLower = want.toLower

instance (want : Char) (v : TokenValue) : Decidable (v.Writes want) :=
  decidable_of_iff _ Stream.matchesKeyword_iff

namespace Stream

/-- The tokens from the first one that is no space. -/
def afterSpaces (ts : List Token) : List Token := ts.dropWhile (·.value.isSpace)

/-- The next tokens, as many as the word has characters, write the word. -/
def ComesNext (word : String) (ts : List Token) : Prop :=
  List.Forall₂ (fun want t => t.value.Writes want) word.toList (ts.take word.length)

instance (word : String) (ts : List Token) : Decidable (ComesNext word ts) :=
  inferInstanceAs (Decidable (List.Forall₂ _ _ _))

theorem comesNext_iff {word : String} :
    ComesNext word ts ↔ Spells word.toList (ts.take word.length) := by
  unfold ComesNext Spells
  simp only [matchesKeyword_iff, TokenValue.Writes]

theorem lacks_of_not_spells {word : List Char} (halone : ∀ t ∈ ts, m.LeavesAlone t)
    (h : ¬ Spells word (ts.take word.length)) : m.Lacks word (ts.map .ok) := by
  induction word generalizing ts with
  | nil => exact h .nil
  | cons want word ih =>
    cases ts with
    | nil => trivial
    | cons t ts =>
      obtain ⟨ht, hts⟩ := List.forall_mem_cons.1 halone
      exact ⟨ht, fun hmatch => ih hts fun hspells => h (.cons hmatch hspells)⟩

theorem afterSpaces_subset (ts : List Token) : afterSpaces ts ⊆ ts :=
  (List.dropWhile_sublist _).subset

/-- A word that does not come next after the spaces is lacking there. -/
theorem lacks_of_not_comesNext {word : String} (halone : ∀ t ∈ ts, m.LeavesAlone t)
    (h : ¬ ComesNext word (afterSpaces ts)) :
    m.Lacks word.toList ((afterSpaces ts).map .ok) := by
  refine lacks_of_not_spells (fun t ht => halone t (afterSpaces_subset ts ht)) fun hspells => h ?_
  rw [comesNext_iff, ← String.length_toList]
  exact hspells

/-- After the spaces comes no space. -/
theorem meets_afterSpaces (halone : ∀ t ∈ ts, m.LeavesAlone t) :
    m.Meets (·.isSpace = false) ((afterSpaces ts).map .ok) := by
  have hhead := List.head?_dropWhile_not (fun t : Token => t.value.isSpace) ts
  cases hnext : afterSpaces ts with
  | nil => trivial
  | cons t rest =>
    have hmem : t ∈ afterSpaces ts := hnext ▸ List.mem_cons_self
    unfold afterSpaces at hnext
    rw [hnext] at hhead
    exact ⟨halone t (afterSpaces_subset ts hmem), hhead⟩

end Stream

namespace Machine.Before

/-- The spaces at the front of the input stand apart from what comes next. -/
theorem apart (h : m₀.Before (ts.map .ok) m) :
    m₀.Before ((ts.takeWhile (·.value.isSpace)).map .ok ++ (Stream.afterSpaces ts).map .ok) m := by
  rw [← List.map_append, Stream.afterSpaces, List.takeWhile_append_dropWhile]
  exact h

theorem keyword_next {word : String} (h : m₀.Before (ts.map .ok) m)
    (halone : ∀ t ∈ ts, m₀.LeavesAlone t) (hnext : Stream.ComesNext word (Stream.afterSpaces ts)) :
    ∃ m', (Stream.expanded x).keyword word m = (.ok true, m') ∧
      m₀.Before (((Stream.afterSpaces ts).drop word.length).map .ok) m' := by
  have hbefore := h.apart
  have hmeets := Stream.meets_afterSpaces halone
  rw [← List.take_append_drop word.length (Stream.afterSpaces ts), List.map_append] at hbefore hmeets
  exact hbefore.keyword_spelled _ word (fun _ => List.mem_takeWhile_imp) hmeets
    (Stream.comesNext_iff.1 hnext)

theorem keyword_absent {word : String} (h : m₀.Before (ts.map .ok) m)
    (halone : ∀ t ∈ ts, m₀.LeavesAlone t)
    (habsent : ¬ Stream.ComesNext word (Stream.afterSpaces ts)) :
    ∃ m', (Stream.expanded x).keyword word m = (.ok false, m') ∧
      m₀.Before ((Stream.afterSpaces ts).map .ok) m' :=
  h.apart.keyword_lacking _ word (fun _ => List.mem_takeWhile_imp) (Stream.meets_afterSpaces halone)
    (Stream.lacks_of_not_comesNext halone habsent)

end Machine.Before

end Gullet
