import Mathlib.Data.List.Forall2
import Mathlib.Data.List.TakeWhile
import Gullet.Source

/-!
# Tracing tokens back to their sources

The sources of an atlas lie one after the other in the space of keys, each with one key more than it has
bytes. So the latest source that begins at or before a key is the one the key belongs to, if it belongs
to any, and the distance of the two is the byte where the token starts. What is shown of that byte is
read off the two parts into which the source falls there.
-/

namespace Gullet

/-! ### Places in a text -/

/-- A byte offset in a text, by what stands around it: the lines above, the two parts of its own line
and the lines below. An offset inside a character counts as the start of that character. -/
structure Cut (content : List Char) (offset : Nat) where
  /-- The lines above, with the line feed of the last one. -/
  above : List Char
  /-- The line up to the offset. -/
  left : List Char
  /-- The line from the offset on. -/
  right : List Char
  /-- What follows the line, from its line feed on. -/
  below : List Char
  whole : (above ++ left) ++ (right ++ below) = content
  begins : above = [] ∨ above.getLast? = some '\n'
  inline : '\n' ∉ left ++ right
  ends : below = [] ∨ below.head? = some '\n'
  reached : byteSize (above ++ left) ≤ offset
  inside : ∀ c ∈ (right ++ below).head?, offset < byteSize (above ++ left) + c.utf8Size

/-- What a report shows of a cut: the line without carriage returns at its end, its number counted from
one, and the number of characters before the offset in it. -/
def Cut.place {content : List Char} {offset : Nat} (cut : Cut content offset) (origin : Origin)
    (value : String) : Trace where
  origin := origin
  line := String.ofList (Text.dropEndWhile (· = '\r') (cut.left ++ cut.right))
  lineNumber := (cut.above ++ cut.left).count '\n' + 1
  index := cut.left.length
  value := value

/-- A text is split where the characters before the offset end. -/
theorem splitAtByte_append_of_le {before after : List Char} {offset : Nat}
    (hle : byteSize before ≤ offset)
    (hlt : ∀ c ∈ after.head?, offset < byteSize before + c.utf8Size) :
    splitAtByte offset (before ++ after) = (before, after) := by
  induction before generalizing offset with
  | nil =>
    cases after with
    | nil => rfl
    | cons c rest =>
      have hc : offset < c.utf8Size := by simpa using hlt c rfl
      simp [splitAtByte, Nat.not_le.2 hc]
  | cons c rest ih =>
    rw [byteSize_cons] at hle
    have hc : c.utf8Size ≤ offset := by omega
    have hle' : byteSize rest ≤ offset - c.utf8Size := by omega
    have hlt' : ∀ d ∈ after.head?, offset - c.utf8Size < byteSize rest + d.utf8Size := by
      intro d hd
      have := hlt d hd
      rw [byteSize_cons] at this
      omega
    simp [splitAtByte, hc, ih hle' hlt']

/-- What stands before the place of a split takes no more bytes than the offset. -/
theorem byteSize_splitAtByte_le (offset : Nat) (chars : List Char) :
    byteSize (splitAtByte offset chars).1 ≤ offset := by
  induction chars generalizing offset with
  | nil => exact Nat.zero_le _
  | cons c rest ih =>
    by_cases hc : c.utf8Size ≤ offset
    · have := ih (offset - c.utf8Size)
      simp [splitAtByte, hc]
      omega
    · simp [splitAtByte, hc]

/-- The character after the place of a split ends beyond the offset. -/
theorem lt_of_head_splitAtByte {offset : Nat} {chars : List Char} {c : Char}
    (h : c ∈ (splitAtByte offset chars).2.head?) :
    offset < byteSize (splitAtByte offset chars).1 + c.utf8Size := by
  induction chars generalizing offset with
  | nil => simp [splitAtByte] at h
  | cons d rest ih =>
    by_cases hd : d.utf8Size ≤ offset
    · simp only [splitAtByte, hd, if_true] at h ⊢
      have := ih h
      rw [byteSize_cons]
      omega
    · simp only [splitAtByte, hd, if_false, List.head?_cons, Option.mem_some_iff] at h ⊢
      subst h
      simpa using hd

/-- The last line of a text begins after its last line feed. -/
theorem lastLine_append {above left : List Char} (habove : above = [] ∨ above.getLast? = some '\n')
    (hleft : '\n' ∉ left) : lastLine (above ++ left) = left := by
  have hall : ∀ c ∈ left.reverse, decide (c ≠ '\n') = true := by
    intro c hc
    have : c ≠ '\n' := fun h => hleft (h ▸ List.mem_reverse.1 hc)
    simpa using this
  have hstop : above.reverse.takeWhile (fun c => decide (c ≠ '\n')) = [] := by
    rcases habove with rfl | hlast
    · rfl
    · obtain ⟨lines, rfl⟩ := List.getLast?_eq_some_iff.1 hlast
      simp
  rw [lastLine, List.reverse_append, List.takeWhile_append_of_pos hall, hstop, List.append_nil,
    List.reverse_reverse]

/-- A line ends at the next line feed. -/
theorem takeWhile_append_of_line {right below : List Char} (hright : '\n' ∉ right)
    (hbelow : below = [] ∨ below.head? = some '\n') :
    (right ++ below).takeWhile (· ≠ '\n') = right := by
  have hall : ∀ c ∈ right, decide (c ≠ '\n') = true := by
    intro c hc
    have : c ≠ '\n' := fun h => hright (h ▸ hc)
    simpa using this
  have hstop : below.takeWhile (fun c => decide (c ≠ '\n')) = [] := by
    rcases hbelow with rfl | hhead
    · rfl
    · obtain ⟨rest, rfl⟩ := List.head?_eq_some_iff.1 hhead
      simp
  rw [List.takeWhile_append_of_pos hall, hstop, List.append_nil]

namespace Cut

variable {content : List Char} {offset : Nat}

theorem newline_not_mem_left (cut : Cut content offset) : '\n' ∉ cut.left :=
  fun h => cut.inline (List.mem_append_left _ h)

theorem newline_not_mem_right (cut : Cut content offset) : '\n' ∉ cut.right :=
  fun h => cut.inline (List.mem_append_right _ h)

/-- The text is split between the two parts of the line. -/
theorem splitAtByte_eq (cut : Cut content offset) :
    splitAtByte offset content = (cut.above ++ cut.left, cut.right ++ cut.below) := by
  have h := splitAtByte_append_of_le cut.reached cut.inside
  rwa [cut.whole] at h

theorem lastLine_eq (cut : Cut content offset) : lastLine (cut.above ++ cut.left) = cut.left :=
  lastLine_append cut.begins cut.newline_not_mem_left

theorem takeWhile_eq (cut : Cut content offset) :
    (cut.right ++ cut.below).takeWhile (· ≠ '\n') = cut.right :=
  takeWhile_append_of_line cut.newline_not_mem_right cut.ends

/-- The place between the two parts of a split is that of the cut. -/
theorem between_eq_place (cut : Cut content offset) (origin : Origin) (value : String) :
    Trace.between origin (cut.above ++ cut.left) (cut.right ++ cut.below) value
      = cut.place origin value := by
  simp only [Trace.between, cut.lastLine_eq, cut.takeWhile_eq, place]

/-- Every offset cuts the text in one way only. -/
instance : Subsingleton (Cut content offset) := by
  constructor
  intro a b
  have hsplit := a.splitAtByte_eq.symm.trans b.splitAtByte_eq
  obtain ⟨hbefore, hafter⟩ := Prod.mk.inj hsplit
  have hleft : a.left = b.left := by rw [← a.lastLine_eq, hbefore, b.lastLine_eq]
  have hright : a.right = b.right := by rw [← a.takeWhile_eq, hafter, b.takeWhile_eq]
  have habove : a.above = b.above := List.append_cancel_right (hleft ▸ hbefore)
  have hbelow : a.below = b.below := List.append_cancel_left (hright ▸ hafter)
  cases a
  cases b
  simp only at hleft hright habove hbelow
  subst hleft hright habove hbelow
  rfl

/-- Every offset cuts the text. -/
theorem nonempty (content : List Char) (offset : Nat) : Nonempty (Cut content offset) := by
  obtain ⟨before, after, hsplit⟩ : ∃ before after, splitAtByte offset content = (before, after) :=
    ⟨_, _, rfl⟩
  have hwhole : before ++ after = content := by
    have h := splitAtByte_append offset content
    rwa [hsplit] at h
  have hreached : byteSize before ≤ offset := by
    have h := byteSize_splitAtByte_le offset content
    rwa [hsplit] at h
  have hinside : ∀ c ∈ after.head?, offset < byteSize before + c.utf8Size := by
    intro c hc
    have h : c ∈ (splitAtByte offset content).2.head? → _ := lt_of_head_splitAtByte
    rw [hsplit] at h
    exact h hc
  -- The line of the offset reaches back to the last line feed before it and on to the next one.
  let above := (before.reverse.dropWhile (· ≠ '\n')).reverse
  let left := lastLine before
  let right := after.takeWhile (· ≠ '\n')
  let below := after.dropWhile (· ≠ '\n')
  have hbefore : above ++ left = before := by
    simp only [above, left, lastLine, ← List.reverse_append, List.takeWhile_append_dropWhile,
      List.reverse_reverse]
  have hafter : right ++ below = after := List.takeWhile_append_dropWhile
  refine ⟨⟨above, left, right, below, ?_, ?_, ?_, ?_, ?_, ?_⟩⟩
  · rw [hbefore, hafter, hwhole]
  · have hhead := List.head?_dropWhile_not (fun c => decide (c ≠ '\n')) before.reverse
    simp only [above, List.getLast?_reverse, List.reverse_eq_nil_iff]
    cases hd : before.reverse.dropWhile (fun c => decide (c ≠ '\n')) with
    | nil => exact .inl rfl
    | cons c rest =>
      rw [hd] at hhead
      exact .inr (by simpa using hhead)
  · intro hmem
    rcases List.mem_append.1 hmem with hmem | hmem
    · have := List.mem_takeWhile_imp (List.mem_reverse.1 hmem)
      simp at this
    · have := List.mem_takeWhile_imp hmem
      simp at this
  · have hhead := List.head?_dropWhile_not (fun c => decide (c ≠ '\n')) after
    cases hd : below with
    | nil => exact .inl rfl
    | cons c rest =>
      rw [show after.dropWhile (fun c => decide (c ≠ '\n')) = c :: rest from hd] at hhead
      exact .inr (by simpa using hhead)
  · rwa [hbefore]
  · rwa [hbefore, hafter]

end Cut

namespace KeyRange

/-- A key of a range lies in it. -/
theorem keyAt_eq_some {r : KeyRange} {offset key : Nat} (h : r.keyAt offset = some key) :
    r.first ≤ key ∧ key < r.limit := by
  unfold keyAt at h
  split at h
  · have := Option.some.inj h
    omega
  · exact nomatch h

end KeyRange

namespace Atlas

/-! ### The space of keys -/

/-- The sources lie below `limit`, each of them, with the key for its end, below the one that was
registered after it. -/
def Laid : List RegisteredSource → Nat → Prop
  | [], _ => True
  | s :: rest, limit => s.size = byteSize s.content ∧ s.first + s.size < limit ∧ Laid rest s.first

/-- Registers sources one after the other. -/
def registerAll : List (Origin × List Char) → Atlas → List KeyRange × Atlas
  | [], a => ([], a)
  | (origin, content) :: rest, a =>
    let (range, a) := a.register origin content
    let (ranges, a) := registerAll rest a
    (range :: ranges, a)

/-- The number of keys that sources take. -/
def keysOf : List (Origin × List Char) → Nat
  | [] => 0
  | (_, content) :: rest => byteSize content + 1 + keysOf rest

@[simp] theorem keysOf_nil : keysOf [] = 0 := rfl

@[simp] theorem keysOf_cons (origin : Origin) (content : List Char)
    (rest : List (Origin × List Char)) :
    keysOf ((origin, content) :: rest) = byteSize content + 1 + keysOf rest := rfl

/-- A source that was laid is found by each of its keys. -/
theorem find?_of_laid {sources : List RegisteredSource} {limit offset : Nat} {s : RegisteredSource}
    (hlaid : Laid sources limit) (hs : s ∈ sources) (ho : offset ≤ s.size) :
    sources.find? (fun t => t.first ≤ s.first + offset) = some s ∧ s.first + s.size < limit := by
  induction sources generalizing limit with
  | nil => exact nomatch hs
  | cons t rest ih =>
    obtain ⟨-, ht, hrest⟩ := hlaid
    rcases List.mem_cons.1 hs with rfl | hs
    · exact ⟨by simp, ht⟩
    · obtain ⟨hfind, hbelow⟩ := ih hrest hs
      -- The source lies below the later one, whose first key is beyond all of its keys.
      have hlater : ¬ t.first ≤ s.first + offset := by omega
      exact ⟨by simp [hlater, hfind], by omega⟩

/-- The sources of the atlas are laid up to its next key, which is short of the limit. -/
def Sound (a : Atlas) : Prop := Laid a.sources a.nextKey ∧ a.nextKey < keyLimit

theorem sound_empty : Sound {} := ⟨trivial, by decide⟩

/-- A registered source that fits takes the next keys and leaves the others as they are. -/
theorem register_of_lt {a : Atlas} (origin : Origin) {content : List Char}
    (h : a.nextKey + (byteSize content + 1) < keyLimit) :
    a.register origin content =
      (⟨a.nextKey, a.nextKey + (byteSize content + 1)⟩,
        { sources := ⟨a.nextKey, origin, content, byteSize content⟩ :: a.sources
          nextKey := a.nextKey + (byteSize content + 1) }) := by
  simp [register, h]

/-- Registering a source that fits keeps an atlas sound. -/
theorem sound_register {a : Atlas} (origin : Origin) {content : List Char} (ha : a.Sound)
    (h : a.nextKey + (byteSize content + 1) < keyLimit) : (a.register origin content).2.Sound := by
  rw [register_of_lt origin h]
  exact ⟨⟨rfl, by simp only; omega, ha.1⟩, h⟩

/-- The range holds one key for each byte of the source and one for its end, and the atlas leads back
from them to the source. -/
structure Holds (a : Atlas) (origin : Origin) (content : List Char) (range : KeyRange) : Prop where
  limit_eq : range.limit = range.first + (byteSize content + 1)
  mem : ⟨range.first, origin, content, byteSize content⟩ ∈ a.sources

/-- Sources that fit are registered in order: the atlas holds each of them and what it held before, and
their ranges lie one above the other. -/
theorem registerAll_holds {sources : List (Origin × List Char)} {a : Atlas} (ha : a.Sound)
    (hfits : a.nextKey + keysOf sources < keyLimit) :
    (registerAll sources a).2.Sound ∧
    a.sources ⊆ (registerAll sources a).2.sources ∧
    (∀ r ∈ (registerAll sources a).1, a.nextKey ≤ r.first) ∧
    List.Pairwise (fun r s : KeyRange => r.limit ≤ s.first) (registerAll sources a).1 ∧
    List.Forall₂ (fun (s : Origin × List Char) r => (registerAll sources a).2.Holds s.1 s.2 r)
      sources (registerAll sources a).1 := by
  induction sources generalizing a with
  | nil => exact ⟨ha, fun _ h => h, by simp [registerAll], .nil, .nil⟩
  | cons source rest ih =>
    obtain ⟨origin, content⟩ := source
    rw [keysOf_cons] at hfits
    have hfit : a.nextKey + (byteSize content + 1) < keyLimit := by omega
    have heq := register_of_lt origin hfit
    have hfits' : (a.register origin content).2.nextKey + keysOf rest < keyLimit := by
      rw [heq]
      simp only
      omega
    obtain ⟨hsound, hkept, habove, hpairs, hholds⟩ := ih (sound_register origin ha hfit) hfits'
    rw [heq] at hsound hkept habove hpairs hholds
    simp only [registerAll, heq]
    refine ⟨hsound, fun s hs => hkept (List.mem_cons_of_mem _ hs), ?_, ?_, ?_⟩
    · intro r hr
      rcases List.mem_cons.1 hr with rfl | hr
      · exact Nat.le_refl _
      · have := habove r hr
        simp only at this
        omega
    · exact .cons habove hpairs
    · exact .cons ⟨rfl, hkept List.mem_cons_self⟩ hholds

/-- A key of a source that the atlas holds leads back to the byte it was made for. -/
theorem find?_keyAt {a : Atlas} {origin : Origin} {content : List Char} {range : KeyRange}
    {offset : Nat} (ha : a.Sound) (h : a.Holds origin content range)
    (ho : offset ≤ byteSize content) :
    (range.keyAt offset).bind a.find?
      = some (⟨range.first, origin, content, byteSize content⟩, offset) := by
  have hkey : range.keyAt offset = some (range.first + offset) := by
    rw [KeyRange.keyAt, h.limit_eq, if_pos (by omega)]
  have hfind := (find?_of_laid ha.1 h.mem ho).1
  rw [hkey, Option.bind_some, find?, hfind]
  simp [ho]

/-- Beyond the end of a source that the atlas holds there are no keys. -/
theorem keyAt_eq_none {a : Atlas} {origin : Origin} {content : List Char} {range : KeyRange}
    {offset : Nat} (h : a.Holds origin content range) (ho : byteSize content < offset) :
    range.keyAt offset = none := by
  rw [KeyRange.keyAt, h.limit_eq, if_neg (by omega)]

/-- No source has a key from the limit on, so such a key leads nowhere. -/
theorem find?_of_keyLimit_le {a : Atlas} {key : Nat} (ha : a.Sound) (hkey : keyLimit ≤ key) :
    a.find? key = none := by
  obtain ⟨hlaid, hnext⟩ := ha
  unfold find?
  cases hs : a.sources with
  | nil => rfl
  | cons s rest =>
    rw [hs] at hlaid
    obtain ⟨-, hbelow, -⟩ := hlaid
    have hle : s.first ≤ key := by omega
    have hbeyond : ¬ key - s.first ≤ s.size := by omega
    simp [hle, hbeyond]

/-- A token without a key cannot be traced. -/
theorem trace_none (a : Atlas) (value : TokenValue) :
    a.trace ⟨value, none⟩ = .unknown value.spelling value.spelling := rfl

/-- A token with a key of a source that the atlas holds is traced to the cut at its offset. -/
theorem trace_of_holds {a : Atlas} {origin : Origin} {content : List Char} {range : KeyRange}
    {offset : Nat} (ha : a.Sound) (h : a.Holds origin content range)
    (ho : offset ≤ byteSize content) (value : TokenValue) (cut : Cut content offset) :
    a.trace ⟨value, range.keyAt offset⟩ = cut.place origin value.spelling := by
  simp only [trace, find?_keyAt ha h ho, cut.splitAtByte_eq, cut.between_eq_place]

/-- **Tokens are traced to where they were read.** Whatever sources are registered one after the other,
as long as the keys suffice: a token that carries the key of a byte of one of them, or of its end, is
traced to that source and the place of that byte in it; beyond the end there are only absent keys, which
are traced to no place, like the number that no key reaches; and no key belongs to two sources. -/
theorem trace_registerAll (sources : List (Origin × List Char)) (ranges : List KeyRange) (a : Atlas)
    (hall : registerAll sources {} = (ranges, a)) (hfits : keysOf sources < keyLimit) :
    ranges.length = sources.length ∧
    (∀ (i : Nat) origin content range, sources[i]? = some (origin, content) →
      ranges[i]? = some range →
      (∀ offset ≤ byteSize content, ∀ value : TokenValue, ∃ cut : Cut content offset,
        a.trace ⟨value, range.keyAt offset⟩ = cut.place origin value.spelling) ∧
      (∀ offset > byteSize content, ∀ value : TokenValue,
        a.trace ⟨value, range.keyAt offset⟩ = .unknown value.spelling value.spelling)) ∧
    (∀ value : TokenValue, a.trace ⟨value, none⟩ = .unknown value.spelling value.spelling ∧
      a.trace ⟨value, some keyLimit⟩ = .unknown value.spelling value.spelling) ∧
    (∀ (i j : Nat) r s, i ≠ j → ranges[i]? = some r → ranges[j]? = some s →
      ∀ o o' key, r.keyAt o = some key → s.keyAt o' ≠ some key) := by
  have hfits' : ({} : Atlas).nextKey + keysOf sources < keyLimit := by simpa using hfits
  obtain ⟨hsound, -, -, hpairs, hholds⟩ := registerAll_holds sound_empty hfits'
  rw [hall] at hsound hpairs hholds
  simp only at hsound hpairs hholds
  refine ⟨hholds.length_eq.symm, ?_, ?_, ?_⟩
  · intro i origin content range hsource hrange
    have hheld : a.Holds origin content range := by
      obtain ⟨hi, hs⟩ := List.getElem?_eq_some_iff.1 hsource
      obtain ⟨hi', hr⟩ := List.getElem?_eq_some_iff.1 hrange
      have h := hholds.get hi hi'
      rw [List.get_eq_getElem, List.get_eq_getElem, hs, hr] at h
      exact h
    constructor
    · intro offset ho value
      obtain ⟨cut⟩ := Cut.nonempty content offset
      exact ⟨cut, trace_of_holds hsound hheld ho value cut⟩
    · intro offset ho value
      rw [keyAt_eq_none hheld ho, trace_none]
  · intro value
    refine ⟨trace_none a value, ?_⟩
    simp [trace, find?_of_keyLimit_le hsound (Nat.le_refl _)]
  · have hlt : ∀ (i j : Nat) (r s : KeyRange), i < j → ranges[i]? = some r → ranges[j]? = some s →
        r.limit ≤ s.first := by
      intro i j r s hij hr hs
      obtain ⟨hi, rfl⟩ := List.getElem?_eq_some_iff.1 hr
      obtain ⟨hj, rfl⟩ := List.getElem?_eq_some_iff.1 hs
      exact List.pairwise_iff_getElem.1 hpairs i j hi hj hij
    intro i j r s hij hr hs o o' key hkey hkey'
    have hrange := KeyRange.keyAt_eq_some hkey
    have hrange' := KeyRange.keyAt_eq_some hkey'
    rcases Nat.lt_or_gt_of_ne hij with hij | hij
    · have := hlt i j r s hij hr hs
      omega
    · have := hlt j i s r hij hs hr
      omega

/-- A letter after an accented one, on the second line of the second source. -/
theorem trace_registerAll_second :
    (registerAll [(.text "a", ['x', '\n']), (.text "b", ['é', '\n', 'é', 'y', '\r', '\n'])] {}).2.trace
        ⟨.char .letter 'y', some 8⟩
      = ⟨.text "b", "éy", 2, 1, "y"⟩ := by
  let sources : List (Origin × List Char) :=
    [(.text "a", ['x', '\n']), (.text "b", ['é', '\n', 'é', 'y', '\r', '\n'])]
  have hrange : (registerAll sources {}).1[1]? = some ⟨3, 12⟩ := by decide
  obtain ⟨cut, hcut⟩ := ((trace_registerAll sources _ _ rfl (by decide)).2.1 1 (.text "b")
    ['é', '\n', 'é', 'y', '\r', '\n'] ⟨3, 12⟩ rfl hrange).1 5 (by decide) (.char .letter 'y')
  have hinside : ∀ c ∈ (['y', '\r'] ++ ['\n']).head?,
      5 < byteSize (['é', '\n'] ++ ['é']) + c.utf8Size := by
    rintro c ⟨⟩
    decide
  rw [Subsingleton.elim cut ⟨['é', '\n'], ['é'], ['y', '\r'], ['\n'], by decide, by decide, by decide,
    by decide, by decide, hinside⟩] at hcut
  exact hcut.trans rfl

end Atlas

end Gullet
