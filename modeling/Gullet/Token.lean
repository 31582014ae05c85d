import Std.Data.TreeMap
import Gullet.CatCode

/-!
# Tokens

A token is a character with the category it had when it was read, or a reference to a command: the name
of a control sequence or an active character. Besides its value a token carries a key that leads back to
the place in the source where it was read; tokens are compared by value only.
-/

namespace Gullet

/-- A reference to a command. What the command does is looked up each time the reference is used. -/
inductive CommandRef where
  /-- The name of a control sequence. -/
  | controlSequence (name : String)
  /-- An active character. -/
  | active (c : Char)
deriving DecidableEq, Repr

namespace CommandRef

/-- Whether the reference is an active character. -/
def isActive : CommandRef → Bool
  | controlSequence _ => false
  | active _ => true

/-- The name of the control sequence, or the character. -/
def name : CommandRef → String
  | controlSequence name => name
  | active c => c.toString

/-- The reference as it is written in a source. -/
def text : CommandRef → String
  | controlSequence name => "\\" ++ name
  | active c => c.toString

/-- References are ordered by name, control sequences before active characters. -/
instance : Ord CommandRef := ⟨compareLex (compareOn isActive) (compareOn name)⟩

/-- Two references with the same kind and name are the same. -/
theorem eq_of_name_eq {a b : CommandRef} (h₁ : a.isActive = b.isActive) (h₂ : a.name = b.name) :
    a = b := by
  cases a <;> cases b <;> simp_all [isActive, name]

instance : Std.TransOrd CommandRef :=
  inferInstanceAs (Std.TransCmp (compareLex (compareOn isActive) (compareOn name)))

instance : Std.LawfulEqOrd CommandRef where
  eq_of_compare {a b} h := by
    have h' : compareLex (compareOn isActive) (compareOn name) a b = .eq := h
    rw [compareLex_eq_eq] at h'
    exact eq_of_name_eq (Std.LawfulEqCmp.eq_of_compare h'.1) (Std.LawfulEqCmp.eq_of_compare h'.2)

end CommandRef

/-- The categories that character tokens have. -/
inductive CharCategory where
  | beginGroup
  | endGroup
  | mathShift
  | alignmentTab
  | parameter
  | superscript
  | subscript
  | space
  | letter
  | other
deriving DecidableEq, Repr, Inhabited

/-- The category code of a token category. -/
def CharCategory.code : CharCategory → CatCode
  | beginGroup => .beginGroup
  | endGroup => .endGroup
  | mathShift => .mathShift
  | alignmentTab => .alignmentTab
  | parameter => .parameter
  | superscript => .superscript
  | subscript => .subscript
  | space => .space
  | letter => .letter
  | other => .other

/-- What a token is, regardless of where it was read. -/
inductive TokenValue where
  /-- A character with the category it had when it was read. -/
  | char (category : CharCategory) (c : Char)
  /-- A reference to a command. -/
  | command (ref : CommandRef)
deriving DecidableEq, Repr

namespace TokenValue

/-- The value of a control sequence. -/
abbrev controlSequence (name : String) : TokenValue := .command (.controlSequence name)

/-- The value of a character that has the given category. Some categories never appear in tokens. -/
def ofChar? (c : Char) : CatCode → Option TokenValue
  | .beginGroup => some (.char .beginGroup c)
  | .endGroup => some (.char .endGroup c)
  | .mathShift => some (.char .mathShift c)
  | .alignmentTab => some (.char .alignmentTab c)
  | .parameter => some (.char .parameter c)
  | .superscript => some (.char .superscript c)
  | .subscript => some (.char .subscript c)
  | .space => some (.char .space c)
  | .letter => some (.char .letter c)
  | .other => some (.char .other c)
  | .active => some (.command (.active c))
  | .escape | .endOfLine | .ignored | .comment | .invalid => none

/-- The character and category of a character token or active character. -/
def charAndCode? : TokenValue → Option (Char × CatCode)
  | .char category c => some (c, category.code)
  | .command (.active c) => some (c, .active)
  | .command (.controlSequence _) => none

/-- The character of a character token or active character. -/
def char? (v : TokenValue) : Option Char := v.charAndCode?.map Prod.fst

/-- The category of a character token or active character. -/
def code? (v : TokenValue) : Option CatCode := v.charAndCode?.map Prod.snd

/-- The command reference, if the value is one. -/
def ref? : TokenValue → Option CommandRef
  | .command ref => some ref
  | .char _ _ => none

/-- Whether the value is a space. -/
def isSpace : TokenValue → Bool
  | .char .space _ => true
  | _ => false

/-- Whether the value opens a group. -/
def isBeginGroup : TokenValue → Bool
  | .char .beginGroup _ => true
  | _ => false

/-- Whether the value closes a group. -/
def isEndGroup : TokenValue → Bool
  | .char .endGroup _ => true
  | _ => false

/-- The value as it stands in a source: a control sequence with its escape character, or the
character. -/
def spelling : TokenValue → String
  | .char _ c => c.toString
  | .command ref => ref.text

/-- The value that names the paragraph break which the tokeniser makes of a blank line. -/
def par : TokenValue := controlSequence "par"

/-- Reading a value's character and category off again. -/
theorem charAndCode?_ofChar? {c : Char} {code : CatCode} {v : TokenValue}
    (h : ofChar? c code = some v) : v.charAndCode? = some (c, code) := by
  cases code <;> simp [ofChar?] at h <;> subst h <;> rfl

/-- A space is a character of its own category. -/
theorem eq_space {v : TokenValue} (h : v.isSpace = true) : ∃ c, v = .char .space c := by
  unfold isSpace at h
  split at h
  · exact ⟨_, rfl⟩
  · cases h

/-- What opens a group neither closes one nor is a space. -/
theorem category_of_isBeginGroup {v : TokenValue} (h : v.isBeginGroup = true) :
    v.isEndGroup = false ∧ v.isSpace = false := by
  cases v with
  | command ref => exact nomatch h
  | char category c =>
    cases category with
    | beginGroup => exact ⟨rfl, rfl⟩
    | _ => exact nomatch h

/-- What closes a group does not open one. -/
theorem isBeginGroup_of_isEndGroup {v : TokenValue} (h : v.isEndGroup = true) :
    v.isBeginGroup = false := by
  cases hv : v.isBeginGroup with
  | false => rfl
  | true => exact absurd h (Bool.eq_false_iff.1 (category_of_isBeginGroup hv).1)

/-- Exactly the token categories give tokens. -/
theorem isSome_ofChar? (c : Char) (code : CatCode) :
    (ofChar? c code).isSome = code.isTokenCategory := by
  cases code <;> rfl

end TokenValue

/-- A key that leads back to a place in a registered source, absent for tokens that come from none. -/
abbrev SourceKey := Option Nat

/-- A token: a value, and the key of the place where it was read. -/
structure Token where
  /-- What the token is. -/
  value : TokenValue
  /-- Where it was read. -/
  key : SourceKey := none
deriving Repr

namespace Token

/-- Tokens are equal as tokens if their values are, wherever they were read. -/
instance : BEq Token := ⟨fun a b => a.value = b.value⟩

/-- A character token. -/
def char (category : CharCategory) (c : Char) (key : SourceKey) : Token := ⟨.char category c, key⟩

/-- A control sequence token. -/
def controlSequence (name : String) (key : SourceKey) : Token := ⟨.controlSequence name, key⟩

/-- The command reference, if the token is one. -/
def ref? (t : Token) : Option CommandRef := t.value.ref?

/-- The character of a character token or active character. -/
def char? (t : Token) : Option Char := t.value.char?

/-- The token that a character of a text becomes: a space stays a space and all else is other. -/
def ofTextChar (key : SourceKey) (c : Char) : Token :=
  if c = ' ' then char .space c key else char .other c key

/-- The tokens of a text. -/
def ofText (s : String) (key : SourceKey) : List Token := s.toList.map (ofTextChar key)

/-- The tokens are characters that neither open nor close a group. -/
def IsPlainText (ts : List Token) : Prop :=
  ∀ t ∈ ts, (∃ category c, t.value = .char category c) ∧ t.value.isBeginGroup = false ∧
    t.value.isEndGroup = false

theorem isPlainText_ofText (s : String) (key : SourceKey) : IsPlainText (ofText s key) := by
  intro t ht
  obtain ⟨c, -, rfl⟩ := List.mem_map.1 ht
  unfold ofTextChar
  split
  · exact ⟨⟨_, _, rfl⟩, rfl, rfl⟩
  · exact ⟨⟨_, _, rfl⟩, rfl, rfl⟩

/-- The tokens of a text spell the text. -/
theorem join_spelling_ofText (s : String) (key : SourceKey) :
    String.join ((ofText s key).map fun t => t.value.spelling) = s := by
  have hspelling (c : Char) : (ofTextChar key c).value.spelling = c.toString := by
    unfold ofTextChar
    split
    case isTrue hc => rw [hc]; rfl
    case isFalse => rfl
  apply String.toList_injective
  rw [String.toList_join, ofText, List.map_map, List.flatMap_map]
  simp [hspelling]

end Token

end Gullet
