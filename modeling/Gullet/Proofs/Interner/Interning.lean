import Mathlib.Data.Finset.Card
import Mathlib.Data.List.Basic
import Mathlib.Data.String.Basic
import Gullet.Interner

/-!
# What an interner remembers

An interner stands for the list of the different texts that it has been given. Its buffer is these texts
one after the other, its offsets are the places where they end, and its buckets hold their positions.
Interning a text keeps this, so keys and texts belong together from the first call to the last.
-/

namespace Gullet.Interner

variable {hash : String → UInt64} {i : Interner hash} {texts ss : List String} {s : String}

/-! ### Representation -/

/-- The characters of texts that stand one after the other. -/
def joined (texts : List String) : List Char := texts.flatMap String.toList

/-- The interner has seen these texts, in this order. -/
structure Holds (i : Interner hash) (texts : List String) : Prop where
  distinct : texts.Nodup
  room : texts.length < keyLimit
  buffer : i.buffer = String.ofList (joined texts)
  size : i.ends.size = texts.length
  ends : ∀ k, (h : k < i.ends.size) → i.ends[k] = String.utf8Len (joined (texts.take (k + 1)))
  buckets : ∀ h key, key ∈ i.buckets.getD h [] ↔
    ∃ k s, key = k + 1 ∧ texts[k]? = some s ∧ hash s = h

theorem holds_empty : (empty : Interner hash).Holds [] where
  distinct := .nil
  room := by decide
  buffer := rfl
  size := rfl
  ends k h := absurd h (Nat.not_lt_zero k)
  buckets h key := by simp [empty]

namespace Holds

theorem resolve?_succ (h : i.Holds texts) (k : Nat) : i.resolve? (k + 1) = texts[k]? := by
  by_cases hk : k < i.ends.size
  · have hlt : k < texts.length := h.size ▸ hk
    -- The text stands between those before it and those after it.
    have hsplit : joined texts =
        joined (texts.take k) ++ texts[k].toList ++ joined (texts.drop (k + 1)) := by
      unfold joined
      rw [List.append_assoc, ← List.flatMap_cons, ← List.drop_eq_getElem_cons hlt,
        ← List.flatMap_append, List.take_append_drop]
    have hstart : (if k = 0 then 0 else i.ends[k - 1]) =
        String.utf8Len (joined (texts.take k)) := by
      split
      · subst k
        rfl
      · rw [h.ends, Nat.sub_add_cancel (by omega)]
    have hstop : i.ends[k] =
        String.utf8Len (joined (texts.take k)) + String.utf8Len texts[k].toList := by
      rw [h.ends, List.take_succ_eq_append_getElem hlt, joined, List.flatMap_append,
        String.utf8Len_append, List.flatMap_singleton, joined]
    rw [resolve?, dif_pos hk, List.getElem?_eq_getElem hlt]
    simp only [hstart, hstop, h.buffer, hsplit]
    rw [String.extract_of_valid, String.ofList_toList]
  · have hle : texts.length ≤ k := h.size ▸ Nat.not_lt.1 hk
    rw [resolve?, dif_neg hk, List.getElem?_eq_none hle]

theorem resolve?_eq_some_iff (h : i.Holds texts) (key : Nat) (s : String) :
    i.resolve? key = some s ↔ ∃ k, key = k + 1 ∧ texts[k]? = some s := by
  cases key with
  | zero => simp [resolve?]
  | succ k => simp [h.resolve?_succ]

/-- A text stands at one place only. -/
theorem getElem?_eq_some_iff (h : i.Holds texts) (hs : s ∈ texts) (k : Nat) :
    texts[k]? = some s ↔ k = texts.idxOf s := by
  have hidx := List.getElem?_idxOf hs
  constructor
  · intro hk
    have hlt := (List.getElem?_eq_some_iff.1 hk).1
    exact (List.getElem?_inj hlt h.distinct).1 (hk.trans hidx.symm)
  · rintro rfl
    exact hidx

theorem resolve?_idxOf (h : i.Holds texts) (hs : s ∈ texts) :
    i.resolve? (texts.idxOf s + 1) = some s := by
  rw [h.resolve?_succ, List.getElem?_idxOf hs]

/-- What leads to a text is the key of its place. -/
theorem mem_of_resolve? (h : i.Holds texts) {key : Nat} (hkey : i.resolve? key = some s) :
    s ∈ texts ∧ key = texts.idxOf s + 1 := by
  obtain ⟨k, rfl, hk⟩ := (h.resolve?_eq_some_iff key s).1 hkey
  have hs := List.mem_of_getElem? hk
  rw [(h.getElem?_eq_some_iff hs k).1 hk]
  exact ⟨hs, rfl⟩

theorem key?_of_mem (h : i.Holds texts) (hs : s ∈ texts) : i.key? s = some (texts.idxOf s + 1) := by
  have hbucket : texts.idxOf s + 1 ∈ i.buckets.getD (hash s) [] :=
    (h.buckets _ _).2 ⟨_, s, rfl, List.getElem?_idxOf hs, rfl⟩
  unfold key?
  cases hfind : (i.buckets.getD (hash s) []).find? fun key => i.resolve? key = some s with
  | none =>
    have hnone := List.find?_eq_none.1 hfind _ hbucket
    simp [h.resolve?_idxOf hs] at hnone
  | some key =>
    have hsome := List.find?_some hfind
    rw [(h.mem_of_resolve? (of_decide_eq_true hsome)).2]

theorem key?_of_not_mem (h : i.Holds texts) (hs : s ∉ texts) : i.key? s = none :=
  List.find?_eq_none.2 fun _ _ hkey => hs (h.mem_of_resolve? (of_decide_eq_true hkey)).1

theorem exists_key?_iff (h : i.Holds texts) (s : String) :
    (∃ key, i.key? s = some key) ↔ s ∈ texts := by
  by_cases hs : s ∈ texts
  · exact iff_of_true ⟨_, h.key?_of_mem hs⟩ hs
  · refine iff_of_false ?_ hs
    rintro ⟨key, hkey⟩
    rw [h.key?_of_not_mem hs] at hkey
    cases hkey

end Holds

/-! ### One call -/

/-- The texts that have been seen once `s` has been interned. -/
def noted (texts : List String) (s : String) : List String :=
  if s ∈ texts then texts else texts ++ [s]

theorem prefix_noted (texts : List String) (s : String) : texts <+: noted texts s := by
  unfold noted
  split
  · exact List.prefix_refl _
  · exact List.prefix_append _ _

theorem mem_noted {x : String} : x ∈ noted texts s ↔ x ∈ texts ∨ x = s := by
  unfold noted
  split
  · exact ⟨.inl, fun h => h.elim id fun h => h ▸ ‹s ∈ texts›⟩
  · simp

theorem nodup_noted (h : texts.Nodup) : (noted texts s).Nodup := by
  unfold noted
  split
  · exact h
  · exact List.concat_eq_append ▸ h.concat ‹s ∉ texts›

theorem getElem?_concat_eq_some_iff {k : Nat} {t : String} :
    (texts ++ [s])[k]? = some t ↔ texts[k]? = some t ∨ k = texts.length ∧ s = t := by
  rcases Nat.lt_trichotomy k texts.length with hk | rfl | hk
  · rw [List.getElem?_append_left hk]
    simp [Nat.ne_of_lt hk]
  · simp
  · rw [List.getElem?_eq_none (by simpa using Nat.succ_le_of_lt hk), List.getElem?_eq_none (Nat.le_of_lt hk)]
    simp [Nat.ne_of_gt hk]

/-- A text that is new is put at the end of the buffer. -/
theorem Holds.push (h : i.Holds texts) (hs : s ∉ texts) (hroom : texts.length + 1 < keyLimit) :
    ({ buffer := i.buffer ++ s
       ends := i.ends.push (i.buffer ++ s).utf8ByteSize
       buckets := i.buckets.insert (hash s) (i.buckets.getD (hash s) [] ++ [texts.length + 1]) } :
      Interner hash).Holds (texts ++ [s]) := by
  have hbuffer : i.buffer ++ s = String.ofList (joined (texts ++ [s])) := by
    rw [h.buffer]
    simp [joined]
  refine ⟨List.concat_eq_append ▸ h.distinct.concat hs, by simpa using hroom, hbuffer,
    by simp [h.size], ?_, ?_⟩
  · intro k hk
    dsimp only at hk ⊢
    rw [Array.size_push] at hk
    by_cases hold : k < i.ends.size
    · rw [Array.getElem_push_lt hold, h.ends,
        List.take_append_of_le_length (by rw [← h.size]; omega)]
    · obtain rfl : k = i.ends.size := by omega
      rw [Array.getElem_push_eq, hbuffer, String.utf8ByteSize_ofList,
        List.take_of_length_le (by simp [h.size])]
  · intro code key
    dsimp only
    rw [Std.TreeMap.getD_insert]
    by_cases hcode : hash s = code
    · subst hcode
      simp only [getElem?_concat_eq_some_iff, Std.ReflOrd.compare_self, if_true, List.mem_append,
        List.mem_singleton, h.buckets]
      constructor
      · rintro (⟨k, t, rfl, hk, ht⟩ | rfl)
        · exact ⟨k, t, rfl, .inl hk, ht⟩
        · exact ⟨_, s, rfl, .inr ⟨rfl, rfl⟩, rfl⟩
      · rintro ⟨k, t, rfl, hk | ⟨rfl, rfl⟩, ht⟩
        · exact .inl ⟨k, t, rfl, hk, ht⟩
        · exact .inr rfl
    · have hne : ¬ compare (hash s) code = .eq := fun heq => hcode (Std.LawfulEqOrd.eq_of_compare heq)
      simp only [hne, if_false, getElem?_concat_eq_some_iff, h.buckets]
      constructor
      · rintro ⟨k, t, rfl, hk, ht⟩
        exact ⟨k, t, rfl, .inl hk, ht⟩
      · rintro ⟨k, t, rfl, hk | ⟨rfl, rfl⟩, ht⟩
        · exact ⟨k, t, rfl, hk, ht⟩
        · exact absurd ht hcode

/-- As long as there are keys, a text gets the key of its place among the texts seen. -/
theorem Holds.intern? (h : i.Holds texts) (hroom : (noted texts s).length < keyLimit) :
    ∃ i', i.intern? s = some ((noted texts s).idxOf s + 1, i') ∧ i'.Holds (noted texts s) := by
  unfold noted at hroom ⊢
  by_cases hs : s ∈ texts
  · rw [if_pos hs, Interner.intern?, h.key?_of_mem hs]
    exact ⟨i, rfl, h⟩
  · rw [if_neg hs] at hroom ⊢
    rw [List.length_append, List.length_singleton] at hroom
    have hkey : keyFor? i.ends.size = some (texts.length + 1) := by
      rw [h.size, keyFor?, if_pos hroom]
    have hidx : (texts ++ [s]).idxOf s = texts.length := by
      simp [List.idxOf_append_of_notMem hs]
    rw [Interner.intern?, h.key?_of_not_mem hs, hkey, hidx]
    exact ⟨_, rfl, h.push hs hroom⟩

theorem Holds.intern?_eq_none (h : i.Holds texts) (hfull : keyLimit ≤ (noted texts s).length) :
    i.intern? s = none := by
  unfold noted at hfull
  have hroom := h.room
  by_cases hs : s ∈ texts
  · rw [if_pos hs] at hfull
    omega
  · rw [if_neg hs, List.length_append, List.length_singleton] at hfull
    have hkey : keyFor? i.ends.size = none := by
      rw [h.size, keyFor?, if_neg (by omega)]
    rw [Interner.intern?, h.key?_of_not_mem hs, hkey]

/-! ### Many calls -/

/-- Interns texts one after the other. Gives their keys, and fails if the keys run out. -/
def internAll (i : Interner hash) : List String → Option (List Nat × Interner hash)
  | [] => some ([], i)
  | s :: rest => do
    let (key, i) ← i.intern? s
    let (keys, i) ← i.internAll rest
    some (key :: keys, i)

theorem prefix_foldl_noted (texts ss : List String) : texts <+: ss.foldl noted texts := by
  induction ss generalizing texts with
  | nil => exact List.prefix_refl _
  | cons s rest ih => exact (prefix_noted texts s).trans (ih _)

theorem mem_foldl_noted {x : String} : x ∈ ss.foldl noted texts ↔ x ∈ texts ∨ x ∈ ss := by
  induction ss generalizing texts with
  | nil => simp
  | cons s rest ih => simp [ih, mem_noted, or_assoc]

theorem nodup_foldl_noted (h : texts.Nodup) : (ss.foldl noted texts).Nodup := by
  induction ss generalizing texts with
  | nil => exact h
  | cons s rest ih => exact ih (nodup_noted h)

/-- Starting from nothing, the texts seen are as many as there are different ones. -/
theorem length_foldl_noted (ss : List String) :
    (ss.foldl noted []).length = ss.toFinset.card := by
  rw [← List.toFinset_card_of_nodup (nodup_foldl_noted .nil)]
  congr 1
  ext x
  simp [mem_foldl_noted]

/-- A text that has been seen keeps its place. -/
theorem idxOf_foldl_noted (hs : s ∈ texts) (ss : List String) :
    (ss.foldl noted texts).idxOf s = texts.idxOf s := by
  obtain ⟨new, hnew⟩ := prefix_foldl_noted texts ss
  rw [← hnew, List.idxOf_append_of_mem hs]

/-- Different texts that have been seen have different places. -/
theorem map_idxOf_eq_iff {a b : Option String} (ha : ∀ {s}, a = some s → s ∈ texts)
    (hb : ∀ {s}, b = some s → s ∈ texts) :
    (a.map fun s => texts.idxOf s + 1) = (b.map fun s => texts.idxOf s + 1) ↔ a = b := by
  cases a with
  | none => cases b <;> simp
  | some s =>
    cases b with
    | none => simp
    | some t => simp [List.idxOf_inj (ha rfl)]

/-- As long as there are keys, every text gets the key of its place among all texts seen in the end. -/
theorem Holds.internAll (h : i.Holds texts) (hroom : (ss.foldl noted texts).length < keyLimit) :
    ∃ i', i.internAll ss = some (ss.map fun s => (ss.foldl noted texts).idxOf s + 1, i') ∧
      i'.Holds (ss.foldl noted texts) := by
  induction ss generalizing i texts with
  | nil => exact ⟨i, rfl, h⟩
  | cons s rest ih =>
    have hfirst := (prefix_foldl_noted (noted texts s) rest).length_le
    obtain ⟨i₁, hintern, h₁⟩ := h.intern? (s := s) (lt_of_le_of_lt hfirst hroom)
    obtain ⟨i', hrest, h'⟩ := ih h₁ hroom
    have hkey := idxOf_foldl_noted (mem_noted.2 (.inr rfl) : s ∈ noted texts s) rest
    refine ⟨i', ?_, h'⟩
    rw [Interner.internAll, hintern]
    simp only [Option.bind_eq_bind, Option.bind_some, hrest, List.map_cons, List.foldl_cons, hkey]

theorem Holds.internAll_eq_none (h : i.Holds texts)
    (hfull : keyLimit ≤ (ss.foldl noted texts).length) : i.internAll ss = none := by
  induction ss generalizing i texts with
  | nil => exact absurd h.room (Nat.not_lt.2 hfull)
  | cons s rest ih =>
    rw [Interner.internAll]
    by_cases hroom : (noted texts s).length < keyLimit
    · obtain ⟨i₁, hintern, h₁⟩ := h.intern? hroom
      simp [hintern, ih h₁ hfull]
    · simp [h.intern?_eq_none (Nat.not_lt.1 hroom)]

/-- What calls that succeed give, and what the interner stands for afterwards. -/
theorem Holds.of_internAll {keys : List Nat} {i' : Interner hash} (h : i.Holds texts)
    (hall : i.internAll ss = some (keys, i')) :
    keys = ss.map (fun s => (ss.foldl noted texts).idxOf s + 1) ∧
      i'.Holds (ss.foldl noted texts) := by
  by_cases hroom : (ss.foldl noted texts).length < keyLimit
  · obtain ⟨i₁, hsome, h₁⟩ := h.internAll hroom
    rw [hall] at hsome
    cases hsome
    exact ⟨rfl, h₁⟩
  · rw [h.internAll_eq_none (Nat.not_lt.1 hroom)] at hall
    cases hall

/-- Whatever the hash function, and for any texts that are interned one after the other: there are
enough keys as long as there are fewer different texts than `keyLimit`; equal texts get equal keys and
different texts different ones; a key leads to its text, now and after any later calls; exactly the
texts that were interned have a key, the one that was given; numbers that were never given as keys lead
to no text; and the size is the number of different texts. -/
theorem interning_faithful (hash : String → UInt64) (ss : List String) :
    ((∃ keys i, (empty : Interner hash).internAll ss = some (keys, i)) ↔
        ss.toFinset.card < keyLimit) ∧
      ∀ (keys : List Nat) (i : Interner hash), empty.internAll ss = some (keys, i) →
        keys.length = ss.length ∧
        (∀ j k : Nat, keys[j]? = keys[k]? ↔ ss[j]? = ss[k]?) ∧
        (∀ (j key : Nat), keys[j]? = some key →
          i.resolve? key = ss[j]? ∧
            ∀ later keys' i', i.internAll later = some (keys', i') → i'.resolve? key = ss[j]?) ∧
        (∀ s, (∃ key, i.key? s = some key) ↔ s ∈ ss) ∧
        (∀ (j : Nat) s, ss[j]? = some s → i.key? s = keys[j]?) ∧
        (∀ key, key ∉ keys → i.resolve? key = none) ∧
        i.size = ss.toFinset.card := by
  have hcount := length_foldl_noted ss
  have hmem : ∀ {s}, s ∈ ss.foldl noted [] ↔ s ∈ ss := by simp [mem_foldl_noted]
  refine ⟨⟨?_, fun hroom => ?_⟩, fun keys i hall => ?_⟩
  · rintro ⟨keys, i, hall⟩
    exact hcount ▸ (holds_empty.of_internAll hall).2.room
  · obtain ⟨i, hall, -⟩ := holds_empty.internAll (hcount.trans_lt hroom)
    exact ⟨_, i, hall⟩
  obtain ⟨rfl, h⟩ := holds_empty.of_internAll hall
  refine ⟨List.length_map _, fun j k => ?_, fun j key hj => ?_, fun s => ?_, fun j s hj => ?_,
    fun key hnever => ?_, by rw [size, h.size, hcount]⟩
  · rw [List.getElem?_map, List.getElem?_map]
    exact map_idxOf_eq_iff (hmem.2 <| List.mem_of_getElem? ·) (hmem.2 <| List.mem_of_getElem? ·)
  · rw [List.getElem?_map, Option.map_eq_some_iff] at hj
    obtain ⟨s, hs, rfl⟩ := hj
    have hseen := hmem.2 (List.mem_of_getElem? hs)
    rw [hs]
    refine ⟨h.resolve?_idxOf hseen, fun later keys' i' hlater => ?_⟩
    obtain ⟨-, h'⟩ := h.of_internAll hlater
    rw [← idxOf_foldl_noted hseen later]
    exact h'.resolve?_idxOf (mem_foldl_noted.2 (.inl hseen))
  · rw [h.exists_key?_iff, hmem]
  · rw [List.getElem?_map, hj, h.key?_of_mem (hmem.2 (List.mem_of_getElem? hj)), Option.map_some]
  · cases hkey : i.resolve? key with
    | none => rfl
    | some s =>
      obtain ⟨hs, rfl⟩ := h.mem_of_resolve? hkey
      exact absurd (List.mem_map.2 ⟨s, hmem.1 hs, rfl⟩) hnever

/-- Three different texts, one of them empty, whose hashes are all the same. -/
theorem interning_faithful_colliding :
    ∃ i : Interner fun _ => 7,
      empty.internAll ["relax", "", "par", "relax"] = some ([1, 2, 3, 1], i) ∧
        i.resolve? 2 = some "" ∧ i.resolve? 4 = none ∧ i.key? "par" = some 3 ∧ i.size = 3 := by
  obtain ⟨hroom, hfaithful⟩ := interning_faithful (fun _ => 7) ["relax", "", "par", "relax"]
  obtain ⟨keys, i, hall⟩ := hroom.2 (by decide)
  have hkeys : keys = [1, 2, 3, 1] := (holds_empty.of_internAll hall).1
  subst hkeys
  obtain ⟨-, -, hresolve, -, hkey, hnever, hsize⟩ := hfaithful _ i hall
  exact ⟨i, hall, (hresolve 1 2 rfl).1, hnever 4 (by decide), hkey 2 "par" rfl, hsize⟩

end Gullet.Interner
