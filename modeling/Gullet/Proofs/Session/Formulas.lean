import Gullet.Proofs.Session.Cancelling
import Gullet.Proofs.Stream.Expanding
import Gullet.Proofs.Stream.Remaining

/-!
# Formulas in a document

A math shift begins a formula or ends one, and of a displayed formula it is only the first of two. Which
of these it is depends on the innermost group and on the next token, so that a run of math shifts is cut
up from its left end as it is read. The outcome is the one that a grammar describes: a document of letters
and math shifts is read without a failure exactly when it is a row of letters and formulas.
-/

namespace Gullet

/-! ### The grammar -/

namespace Formulas

/-- A piece of a text in which formulas stand. -/
inductive Piece where
  | letter (c : Char)
  /-- A formula with the letters in it. -/
  | formula (display : Bool) (body : List Char)

/-- What stands on either side of a formula. -/
def shifts (display : Bool) : List Char := if display then ['$', '$'] else ['$']

namespace Piece

/-- What the piece looks like. -/
def chars : Piece → List Char
  | letter c => [c]
  | formula display body => shifts display ++ (body ++ shifts display)

/-- There are letters where letters should be, and only a displayed formula may be empty. -/
def WellFormed : Piece → Prop
  | letter c => c.isAlpha = true
  | formula display body => (∀ c ∈ body, c.isAlpha = true) ∧ (display = false → body ≠ [])

/-- The groups of the piece: a formula is one. -/
def marks : Piece → List GroupMark
  | letter _ => []
  | formula display _ => [.opened (.math display), .closed (.math display)]

end Piece

/-- The text is cut into the pieces. -/
structure CutInto (text : List Char) (pieces : List Piece) : Prop where
  wellFormed : ∀ p ∈ pieces, p.WellFormed
  text : text = pieces.flatMap Piece.chars

/-- Whether the character is a math shift or a letter. -/
def IsSign (c : Char) : Prop := c = '$' ∨ c.isAlpha = true

/-- The marks of a text that is read inside the given formula, if any; nothing if the text ends inside a
formula or ends a displayed one with a single math shift. -/
def scan : Option Bool → List Char → Option (List GroupMark)
  | none, [] => some []
  | some _, [] => none
  | inside, c :: rest =>
    if c = '$' then
      match inside with
      | some false => (scan none rest).map (.closed (.math false) :: ·)
      | some true =>
        match rest with
        | [] => none
        | second :: after =>
          if second = '$' then (scan none after).map (.closed (.math true) :: ·) else none
      | none =>
        match rest with
        | [] => none
        | second :: after =>
          if second = '$' then (scan (some true) after).map (.opened (.math true) :: ·)
          else (scan (some false) after).map (.opened (.math false) :: ·)
    else scan inside rest

variable {c : Char} {text body : List Char} {marks : List GroupMark}

theorem ne_shift_of_isAlpha (hc : c.isAlpha = true) : c ≠ '$' := by
  rintro rfl
  exact absurd hc (by decide)

theorem toNat_lt_of_isAlpha (hc : c.isAlpha = true) : c.toNat < 0x80 := by
  have hle : c.val ≤ 'z'.val := by
    rcases Bool.or_eq_true_iff.1 hc with hupper | hlower
    · exact UInt32.le_trans (of_decide_eq_true hupper).2 (by decide)
    · exact of_decide_eq_true (Bool.and_eq_true_iff.1 hlower).2
  exact Nat.lt_of_le_of_lt (UInt32.le_iff_toNat_le.1 hle) (by decide)

theorem scan_letter (hc : c ≠ '$') (inside : Option Bool) (text : List Char) :
    scan inside (c :: text) = scan inside text := by
  rw [scan.eq_def]
  cases inside with
  | none => exact if_neg hc
  | some display => exact if_neg hc

/-- The letters of a formula are passed over. -/
theorem scan_body (hbody : ∀ c ∈ body, c.isAlpha = true) (inside : Option Bool) (text : List Char) :
    scan inside (body ++ text) = scan inside text := by
  induction body with
  | nil => rfl
  | cons c body ih =>
    obtain ⟨hc, hbody⟩ := List.forall_mem_cons.1 hbody
    rw [List.cons_append, scan_letter (ne_shift_of_isAlpha hc), ih hbody]

theorem scan_close (display : Bool) (text : List Char) :
    scan (some display) (shifts display ++ text) =
      (scan none text).map (.closed (.math display) :: ·) := by
  cases display <;> rfl

/-- A piece is passed over as a whole. -/
theorem scan_piece {p : Piece} (hp : p.WellFormed) (text : List Char) :
    scan none (p.chars ++ text) = (scan none text).map (p.marks ++ ·) := by
  cases p with
  | letter c =>
    rw [Piece.chars, List.singleton_append, scan_letter (ne_shift_of_isAlpha hp)]
    exact (Option.map_id' ..).symm
  | formula display body =>
    obtain ⟨hbody, hempty⟩ := hp
    have hinside : scan (some display) (body ++ (shifts display ++ text)) =
        (scan none text).map (.closed (.math display) :: ·) := by
      rw [scan_body hbody, scan_close]
    have hopen : scan none (shifts display ++ (body ++ (shifts display ++ text))) =
        (scan (some display) (body ++ (shifts display ++ text))).map (.opened (.math display) :: ·) := by
      cases display with
      | true => rfl
      | false =>
        -- only at a letter is it seen that the formula is not a displayed one
        obtain ⟨first, body, rfl⟩ := List.exists_cons_of_ne_nil (hempty rfl)
        have hfirst := ne_shift_of_isAlpha (hbody first List.mem_cons_self)
        rw [List.cons_append, scan_letter hfirst]
        show scan none ('$' :: first :: _) = _
        rw [scan.eq_def]
        dsimp only
        rw [if_pos rfl, if_neg hfirst]
    rw [Piece.chars, List.append_assoc, List.append_assoc, hopen, hinside, Option.map_map]
    rfl

theorem scan_pieces {pieces : List Piece} (h : CutInto text pieces) :
    scan none text = some (pieces.flatMap Piece.marks) := by
  obtain ⟨hpieces, rfl⟩ := h
  induction pieces with
  | nil => rfl
  | cons p pieces ih =>
    obtain ⟨hp, hpieces⟩ := List.forall_mem_cons.1 hpieces
    rw [List.flatMap_cons, List.flatMap_cons, scan_piece hp, ih hpieces]
    rfl

/-- The text ends the given formula, if any, and goes on with pieces. -/
def Completes : Option Bool → List Char → Prop
  | none, text => ∃ pieces, CutInto text pieces
  | some display, text =>
    ∃ body rest pieces, text = body ++ (shifts display ++ rest) ∧ (∀ c ∈ body, c.isAlpha = true) ∧
      CutInto rest pieces

theorem CutInto.cons {p : Piece} {pieces : List Piece} (hp : p.WellFormed) (h : CutInto text pieces) :
    CutInto (p.chars ++ text) (p :: pieces) where
  wellFormed := List.forall_mem_cons.2 ⟨hp, h.wellFormed⟩
  text := by rw [List.flatMap_cons, ← h.text]

theorem Completes.letter (hc : c.isAlpha = true) {inside : Option Bool} (h : Completes inside text) :
    Completes inside (c :: text) := by
  cases inside with
  | none =>
    obtain ⟨pieces, hpieces⟩ := h
    exact ⟨_, hpieces.cons (p := .letter c) hc⟩
  | some display =>
    obtain ⟨body, rest, pieces, rfl, hbody, hpieces⟩ := h
    exact ⟨c :: body, rest, pieces, rfl, List.forall_mem_cons.2 ⟨hc, hbody⟩, hpieces⟩

theorem Completes.close {display : Bool} (h : Completes none text) :
    Completes (some display) (shifts display ++ text) := by
  obtain ⟨pieces, hpieces⟩ := h
  exact ⟨[], text, pieces, rfl, List.forall_mem_nil _, hpieces⟩

theorem Completes.openDisplay (h : Completes (some true) text) :
    Completes none ('$' :: '$' :: text) := by
  obtain ⟨body, rest, pieces, rfl, hbody, hpieces⟩ := h
  refine ⟨.formula true body :: pieces, ?_⟩
  have hcut := hpieces.cons (p := .formula true body) ⟨hbody, nofun⟩
  rw [Piece.chars, List.append_assoc, List.append_assoc] at hcut
  exact hcut

theorem Completes.openInline (hc : c.isAlpha = true) (h : Completes (some false) text) :
    Completes none ('$' :: c :: text) := by
  obtain ⟨body, rest, pieces, rfl, hbody, hpieces⟩ := h
  refine ⟨.formula false (c :: body) :: pieces, ?_⟩
  have hcut := hpieces.cons (p := .formula false (c :: body))
    ⟨List.forall_mem_cons.2 ⟨hc, hbody⟩, fun _ => List.cons_ne_nil _ _⟩
  rw [Piece.chars, List.append_assoc, List.append_assoc] at hcut
  exact hcut

/-- A text of which the scan makes marks is cut as the grammar demands. -/
theorem completes_of_scan {inside : Option Bool} (htext : ∀ c ∈ text, IsSign c)
    (h : (scan inside text).isSome = true) : Completes inside text := by
  have hletter {c : Char} {rest : List Char} (htext : ∀ d ∈ c :: rest, IsSign d) (hc : c ≠ '$') :
      c.isAlpha = true := (htext c List.mem_cons_self).resolve_left hc
  fun_induction scan inside text with
  | case1 => exact ⟨[], List.forall_mem_nil _, rfl⟩
  | case2 => cases h
  | case3 rest ih =>
    rw [Option.isSome_map] at h
    exact (ih (List.forall_mem_cons.1 htext).2 h).close
  | case4 => cases h
  | case5 after ih =>
    rw [Option.isSome_map] at h
    obtain ⟨-, htext⟩ := List.forall_mem_cons.1 htext
    exact (ih (List.forall_mem_cons.1 htext).2 h).close
  | case6 => cases h
  | case7 => cases h
  | case8 after ih =>
    rw [Option.isSome_map] at h
    obtain ⟨-, htext⟩ := List.forall_mem_cons.1 htext
    exact (ih (List.forall_mem_cons.1 htext).2 h).openDisplay
  | case9 second after hsecond ih =>
    rw [Option.isSome_map] at h
    obtain ⟨-, htext⟩ := List.forall_mem_cons.1 htext
    exact (ih (List.forall_mem_cons.1 htext).2 h).openInline (hletter htext hsecond)
  | case10 inside c rest hc ih =>
    exact (ih (List.forall_mem_cons.1 htext).2 h).letter (hletter htext hc)

/-- **The scan goes through exactly the texts that the grammar describes.** -/
theorem isSome_scan_iff (htext : ∀ c ∈ text, IsSign c) :
    (scan none text).isSome = true ↔ ∃ pieces, CutInto text pieces := by
  refine ⟨completes_of_scan htext, ?_⟩
  rintro ⟨pieces, hpieces⟩
  rw [scan_pieces hpieces]
  rfl

end Formulas

/-! ### The machine -/

/-- Of a group in which nothing is done nothing is left. -/
theorem Scopes.closeGroup_openGroup (s : Scopes) (g : Group) : (s.openGroup g).closeGroup = s := by
  rfl

namespace Machine

variable {m m' : Machine}

theorem remaining_of_same (hinput : m'.input = m.input) (hcode : m'.codeOf = m.codeOf) :
    m'.remaining = m.remaining := by
  unfold remaining
  rw [hinput, hcode]

end Machine

namespace Formulas

open Session

/-- The value of a letter or a math shift. -/
def signValue (c : Char) : TokenValue := .char (if c = '$' then .mathShift else .letter) c

/-- What is subject to grouping is as given, with the given formula open, if any. -/
def IsWithin (s : Scopes) : Option Bool → Scopes → Prop
  | none, inner => inner = s
  | some display, inner => ∃ g : Group, g.kind = .math display ∧ inner = s.openGroup g

/-- The machine reads the text, within the given formula, if any. The marks of the groups so far are
listed latest first. -/
structure Reads (s : Scopes) (inside : Option Bool) (text : List Char) (marks : List GroupMark)
    (m : Machine) : Prop where
  going : m.cancellation.raised = false
  handlers : m.handlers = .dropping
  within : IsWithin s inside m.scopes
  remaining : ∃ ts : List Token, m.remaining = ts.map .ok ∧ ts.map Token.value = text.map signValue
  marks : m.history.filterMap GroupMark.ofChange? = marks

variable {s : Scopes} {inside : Option Bool} {c : Char} {text : List Char}
  {marks marks' : List GroupMark} {m : Machine} {t : Token} {display : Bool}

namespace Reads

/-- Reading on changes nothing but what is left to be read. -/
theorem of_same {m' : Machine} {text' : List Char} {ts : List Token} (h : Reads s inside text marks m)
    (hsame : m.SameButInput m') (hitems : m'.remaining = ts.map .ok)
    (hvalues : ts.map Token.value = text'.map signValue) : Reads s inside text' marks m' where
  going := hsame.raised.trans h.going
  handlers := by
    rw [hsame]
    exact h.handlers
  within := by
    rw [hsame]
    exact h.within
  remaining := ⟨ts, hitems, hvalues⟩
  marks := by
    rw [hsame]
    exact h.marks

/-- Reading takes the first character of the text. -/
theorem raw (h : Reads s inside (c :: text) marks m) :
    ∃ t read, Stream.raw m = (.ok (some t), read) ∧ t.value = signValue c ∧
      Reads s inside text marks read := by
  obtain ⟨ts, hitems, hvalues⟩ := h.remaining
  obtain ⟨t, ts, rfl, ht, hts⟩ := List.map_eq_cons_iff.1 hvalues
  obtain ⟨read, hraw, htail, hsame⟩ := Stream.raw_of_remaining h.going
  rw [hitems] at hraw htail
  exact ⟨t, read, hraw, ht, h.of_same hsame htail hts⟩

/-- At the end of the text nothing is read. -/
theorem raw_end (h : Reads s inside [] marks m) :
    ∃ read, Stream.raw m = (.ok none, read) ∧ Reads s inside [] marks read := by
  obtain ⟨ts, hitems, hvalues⟩ := h.remaining
  obtain rfl := List.map_eq_nil_iff.1 hvalues
  obtain ⟨read, hraw, hempty, hsame⟩ := Stream.raw_at_end h.going hitems
  have hitems' : read.remaining = ([] : List Token).map .ok := hempty
  exact ⟨read, hraw, h.of_same hsame hitems' rfl⟩

/-- A formula is opened outside all formulas. -/
theorem opened (h : Reads s none text marks m) {g : Group} (hg : g.kind = .math display) :
    Reads s (some display) text (.opened (.math display) :: marks)
      ((m.change (.opened g)).emit (.beginGroup g)) where
  going := h.going
  handlers := h.handlers
  within := ⟨g, hg, congrArg (Scopes.openGroup · g) h.within⟩
  remaining := by
    obtain ⟨ts, hitems, hvalues⟩ := h.remaining
    exact ⟨ts, (Machine.remaining_of_same rfl rfl).trans hitems, hvalues⟩
  marks := by
    rw [← h.marks, ← hg]
    rfl

/-- The formula that is open is closed. -/
theorem closed (h : Reads s (some display) text marks m) {g : Group} (hg : g.kind = .math display) :
    Reads s none text (.closed (.math display) :: marks)
      ((m.change (.closed g)).emit (.endGroup g)) where
  going := h.going
  handlers := h.handlers
  within := by
    obtain ⟨opened, -, hscopes⟩ := h.within
    show m.scopes.closeGroup = s
    rw [hscopes, Scopes.closeGroup_openGroup]
  remaining := by
    obtain ⟨opened, -, hscopes⟩ := h.within
    obtain ⟨ts, hitems, hvalues⟩ := h.remaining
    have hcode : ((m.change (.closed g)).emit (.endGroup g)).codeOf = m.codeOf := by
      show (fun c : Char => m.scopes.closeGroup.store.catCode c.toNat) =
        fun c : Char => m.scopes.store.catCode c.toNat
      rw [hscopes]
      rfl
    have hrest : ((m.change (.closed g)).emit (.endGroup g)).remaining = m.remaining :=
      Machine.remaining_of_same rfl hcode
    exact ⟨ts, hrest.trans hitems, hvalues⟩
  marks := by
    rw [← h.marks, ← hg]
    rfl

/-- A character that is put back is read again. -/
theorem back (h : Reads s inside text marks m) (ht : t.value = signValue c) :
    Reads s inside (c :: text) marks (m.push [t]) := by
  obtain ⟨ts, hitems, hvalues⟩ := h.remaining
  have hback : (m.push [t]).remaining = (t :: ts).map .ok := by
    rw [Machine.remaining_push, hitems]
    rfl
  refine h.of_same (.push m [t]) hback ?_
  rw [List.map_cons, List.map_cons, ht, hvalues]

/-! ### What a math shift does -/

theorem beginGroup (h : Reads s none text marks m) (display : Bool) (opener : Token) :
    ∃ m', Run.beginGroup (.math display) opener m = (.ok (), m') ∧
      Reads s (some display) text (.opened (.math display) :: marks) m' := by
  let g : Group := { kind := .math display, opener }
  exact ⟨_, rfl, h.opened (g := g) rfl⟩

theorem endGroup (h : Reads s (some display) text marks m) (closer : Token) :
    ∃ m', Run.endGroup (.math display) closer m = (.ok (), m') ∧
      Reads s none text (.closed (.math display) :: marks) m' := by
  obtain ⟨g, hg, hscopes⟩ := h.within
  have hgroups : m.scopes.groups = g :: s.groups := congrArg Scopes.groups hscopes
  rcases Run.endGroup_eval (.math display) closer m with ⟨-, hwrong⟩ | ⟨g', outer, hgroups', hk, heval⟩
  · exact absurd hg (hwrong g _ hgroups)
  · exact ⟨_, heval, h.closed hk⟩

/-- The formula that is open is the innermost group. -/
theorem kind (h : Reads s inside text marks m) (hs : s.groups = []) :
    m.scopes.groups.head?.map Group.kind = inside.map .math := by
  have hwithin := h.within
  cases inside with
  | none =>
    rw [show m.scopes = s from hwithin, hs]
    rfl
  | some display =>
    obtain ⟨g, hg, hscopes⟩ := hwithin
    rw [hscopes]
    exact congrArg some hg

/-- In a formula that is not displayed a math shift ends it. -/
theorem mathShift_inline (h : Reads s (some false) text marks m) (hs : s.groups = []) (t : Token) :
    ∃ m', Typesetting.mathShift t m = (.ok (), m') ∧
      Reads s none text (.closed (.math false) :: marks) m' := by
  unfold Typesetting.mathShift
  rw [Run.get_bind_eval, h.kind hs]
  exact h.endGroup t

/-- In a displayed formula two math shifts end it. -/
theorem mathShift_display (h : Reads s (some true) ('$' :: text) marks m) (hs : s.groups = [])
    (t : Token) :
    ∃ m', Typesetting.mathShift t m = (.ok (), m') ∧
      Reads s none text (.closed (.math true) :: marks) m' := by
  obtain ⟨next, read, hraw, hnext, hread⟩ := h.raw
  unfold Typesetting.mathShift
  rw [Run.get_bind_eval, h.kind hs]
  dsimp only [Option.map_some]
  rw [Run.bind_of_ok hraw]
  dsimp only
  rw [hnext]
  exact hread.endGroup t

/-- In a displayed formula a single math shift is a failure. -/
theorem mathShift_single (h : Reads s (some true) text marks m) (hs : s.groups = [])
    (htext : text.head? ≠ some '$') (t : Token) :
    ∃ d m', Typesetting.mathShift t m = (.error (.failed d), m') ∧
      Reads s (some true) text.tail marks m' := by
  unfold Typesetting.mathShift
  rw [Run.get_bind_eval, h.kind hs]
  dsimp only [Option.map_some]
  cases text with
  | nil =>
    obtain ⟨read, hraw, hread⟩ := h.raw_end
    exact ⟨_, read, Run.bind_of_ok hraw, hread⟩
  | cons c rest =>
    have hc : c ≠ '$' := by simpa using htext
    obtain ⟨next, read, hraw, hnext, hread⟩ := h.raw
    rw [Run.bind_of_ok hraw]
    dsimp only
    rw [hnext, signValue, if_neg hc]
    exact ⟨_, read, rfl, hread⟩

/-- Outside formulas two math shifts begin a displayed one. -/
theorem mathShift_twice (h : Reads s none ('$' :: text) marks m) (hs : s.groups = []) (t : Token) :
    ∃ m', Typesetting.mathShift t m = (.ok (), m') ∧
      Reads s (some true) text (.opened (.math true) :: marks) m' := by
  obtain ⟨next, read, hraw, hnext, hread⟩ := h.raw
  obtain ⟨m', hbegin, hm'⟩ := hread.beginGroup true t
  unfold Typesetting.mathShift
  rw [Run.get_bind_eval, h.kind hs]
  refine ⟨m', (Run.bind_of_ok (Run.take?_of_some (a := ()) hraw ?_)).trans hbegin, hm'⟩
  rw [hnext]
  rfl

/-- Outside formulas a single math shift begins one that is not displayed. -/
theorem mathShift_once (h : Reads s none text marks m) (hs : s.groups = [])
    (htext : text.head? ≠ some '$') (t : Token) :
    ∃ m', Typesetting.mathShift t m = (.ok (), m') ∧
      Reads s (some false) text (.opened (.math false) :: marks) m' := by
  unfold Typesetting.mathShift
  rw [Run.get_bind_eval, h.kind hs]
  cases text with
  | nil =>
    obtain ⟨read, hraw, hread⟩ := h.raw_end
    obtain ⟨m', hbegin, hm'⟩ := hread.beginGroup false t
    exact ⟨m', (Run.bind_of_ok (Run.take?_of_end hraw)).trans hbegin, hm'⟩
  | cons c rest =>
    have hc : c ≠ '$' := by simpa using htext
    obtain ⟨next, read, hraw, hnext, hread⟩ := h.raw
    obtain ⟨m', hbegin, hm'⟩ := (hread.back hnext).beginGroup false t
    refine ⟨m', (Run.bind_of_ok (Run.take?_of_none hraw ?_)).trans hbegin, hm'⟩
    rw [hnext, signValue, if_neg hc]

end Reads

/-! ### The main loop -/

/-- Reading to the end, where no group may be open. -/
def toEnd (steps : Nat) : Run Unit := (mainLoop steps : Run Unit) >>= fun _ => checkGroups

theorem toEnd_of_round {m' : Machine} (h : Round m m') (steps : Nat) :
    toEnd (steps + 1) m = toEnd steps m' := by
  unfold toEnd
  rw [Run.bind_eval, Run.bind_eval, mainLoop_of_round h]

theorem toEnd_of_error {read m' : Machine} {halt : Halt} (hmain : Stream.main m = (.ok (some t), read))
    (hprocess : Execution.process t read = (.error halt, m')) (steps : Nat) :
    toEnd (steps + 1) m = (.error halt, m') := by
  have hloop : mainLoop (steps + 1) m = (.error halt, m') := by
    rw [mainLoop, hmain]
    dsimp only
    rw [hprocess]
  exact Run.bind_of_error hloop

theorem toEnd_of_end {read : Machine} (hmain : Stream.main m = (.ok none, read)) (steps : Nat) :
    toEnd steps m = checkGroups read := by
  have hloop : mainLoop steps m = (.ok (), read) := by
    cases steps <;> rw [mainLoop, hmain]
  exact Run.bind_of_ok hloop

/-- What a reading to the end comes to: with marks it has succeeded, and these are the marks that it has
added; without them it has failed somewhere in the text. -/
def ComesTo (s : Scopes) (marks : List GroupMark) (outcome : Except Halt Unit × Machine) :
    Option (List GroupMark) → Prop
  | some later => outcome.1 = .ok () ∧ Reads s none [] (later.reverse ++ marks) outcome.2
  | none => ∃ d inside text marks', outcome.1 = .error (.failed d) ∧ Reads s inside text marks' outcome.2

theorem ComesTo.cons {mark : GroupMark} {outcome : Except Halt Unit × Machine}
    {later? : Option (List GroupMark)} (h : ComesTo s (mark :: marks) outcome later?) :
    ComesTo s marks outcome (later?.map (mark :: ·)) := by
  cases later? with
  | none => exact h
  | some later =>
    obtain ⟨hresult, hread⟩ := h
    refine ⟨hresult, ?_⟩
    rw [List.reverse_cons, List.append_assoc]
    exact hread

theorem ComesTo.within {outcome : Except Halt Unit × Machine} {later? : Option (List GroupMark)}
    (h : ComesTo s marks outcome later?) : ∃ inside, IsWithin s inside outcome.2.scopes := by
  cases later? with
  | some later => exact ⟨_, h.2.within⟩
  | none =>
    obtain ⟨d, inside, text, marks', -, hread⟩ := h
    exact ⟨inside, hread.within⟩

namespace Reads

/-- A letter is dropped, and for a math shift its handler is run. -/
theorem next (h : Reads s inside (c :: text) marks m) :
    ∃ t read, Stream.main m = (.ok (some t), read) ∧ Reads s inside text marks read ∧
      Execution.process t read =
        if c = '$' then Typesetting.mathShift t read else (.ok (), read) := by
  obtain ⟨t, read, hraw, ht, hread⟩ := h.raw
  refine ⟨t, read, Run.expanded_of_char hraw ht, hread, ?_⟩
  unfold Execution.process
  rw [ht, signValue]
  dsimp only
  split
  · rfl
  · show Execution.character t .letter c read = (.ok (), read)
    unfold Execution.character
    rw [Run.get_bind_eval, hread.handlers]
    rfl

theorem round_letter (h : Reads s inside (c :: text) marks m) (hc : c ≠ '$') :
    ∃ m', Round m m' ∧ Reads s inside text marks m' := by
  obtain ⟨t, read, hmain, hread, hprocess⟩ := h.next
  rw [if_neg hc] at hprocess
  exact ⟨read, ⟨t, read, hmain, hprocess⟩, hread⟩

/-- A round in which a math shift does what its handler is known to do. -/
theorem round_shift {inside' : Option Bool} {text' : List Char} {marks' : List GroupMark}
    (h : Reads s inside ('$' :: text) marks m)
    (hshift : ∀ t read, Reads s inside text marks read →
      ∃ m', Typesetting.mathShift t read = (.ok (), m') ∧ Reads s inside' text' marks' m') :
    ∃ m', Round m m' ∧ Reads s inside' text' marks' m' := by
  obtain ⟨t, read, hmain, hread, hprocess⟩ := h.next
  rw [if_pos rfl] at hprocess
  obtain ⟨m', heval, hm'⟩ := hshift t read hread
  exact ⟨m', ⟨t, read, hmain, hprocess.trans heval⟩, hm'⟩

/-- A text that ends in a formula is refused. -/
theorem comesTo_end (h : Reads s (some display) [] marks m) (steps : Nat) :
    ComesTo s marks' (toEnd steps m) none := by
  obtain ⟨read, hraw, hread⟩ := h.raw_end
  obtain ⟨g, hg, hscopes⟩ := hread.within
  have hcheck : checkGroups read = Run.fail (.groupLeftOpen g) read := by
    unfold checkGroups
    rw [Run.get_bind_eval, hscopes]
    rfl
  rw [toEnd_of_end (Run.expanded_of_none hraw), hcheck]
  exact ⟨_, _, _, _, rfl, hread⟩

/-- A displayed formula with a single math shift in it is refused. -/
theorem comesTo_single (h : Reads s (some true) ('$' :: text) marks m) (hs : s.groups = [])
    (htext : text.head? ≠ some '$') (steps : Nat) :
    ComesTo s marks' (toEnd (steps + 1) m) none := by
  obtain ⟨t, read, hmain, hread, hprocess⟩ := h.next
  rw [if_pos rfl] at hprocess
  obtain ⟨d, m', hshift, hm'⟩ := hread.mathShift_single hs htext t
  rw [toEnd_of_error hmain (hprocess.trans hshift)]
  exact ⟨_, _, _, _, rfl, hm'⟩

/-- **Reading to the end comes to what the scan says.** -/
theorem comesTo (h : Reads s inside text marks m) (hs : s.groups = []) {steps : Nat}
    (hsteps : text.length ≤ steps) : ComesTo s marks (toEnd steps m) (scan inside text) := by
  have hsucc {c : Char} {rest : List Char} {steps : Nat} (hsteps : (c :: rest).length ≤ steps) :
      ∃ n, steps = n + 1 ∧ rest.length ≤ n := by
    obtain ⟨n, rfl⟩ := Nat.exists_eq_add_one.2 (Nat.lt_of_lt_of_le (Nat.succ_pos _) hsteps)
    exact ⟨n, rfl, Nat.le_of_succ_le_succ hsteps⟩
  fun_induction scan inside text generalizing m marks steps with
  | case1 =>
    obtain ⟨read, hraw, hread⟩ := h.raw_end
    have hcheck : checkGroups read = (.ok (), read) := by
      unfold checkGroups
      rw [Run.get_bind_eval, show read.scopes = s from hread.within, hs]
      rfl
    rw [toEnd_of_end (Run.expanded_of_none hraw), hcheck]
    exact ⟨rfl, hread⟩
  | case2 display => exact h.comesTo_end steps
  | case3 rest ih =>
    obtain ⟨steps, rfl, hrest⟩ := hsucc hsteps
    obtain ⟨m', hround, hm'⟩ := h.round_shift fun t read hread => hread.mathShift_inline hs t
    rw [toEnd_of_round hround]
    exact (ih hm' hrest).cons
  | case4 =>
    obtain ⟨steps, rfl, hrest⟩ := hsucc hsteps
    exact h.comesTo_single hs nofun steps
  | case5 after ih =>
    obtain ⟨steps, rfl, hrest⟩ := hsucc hsteps
    obtain ⟨m', hround, hm'⟩ := h.round_shift fun t read hread => hread.mathShift_display hs t
    rw [toEnd_of_round hround]
    exact (ih hm' (Nat.le_of_succ_le hrest)).cons
  | case6 second after hsecond =>
    obtain ⟨steps, rfl, hrest⟩ := hsucc hsteps
    exact h.comesTo_single hs (by simpa using hsecond) _
  | case7 =>
    obtain ⟨steps, rfl, hrest⟩ := hsucc hsteps
    obtain ⟨m', hround, hm'⟩ := h.round_shift fun t read hread => hread.mathShift_once hs nofun t
    rw [toEnd_of_round hround]
    exact hm'.comesTo_end steps
  | case8 after ih =>
    obtain ⟨steps, rfl, hrest⟩ := hsucc hsteps
    obtain ⟨m', hround, hm'⟩ := h.round_shift fun t read hread => hread.mathShift_twice hs t
    rw [toEnd_of_round hround]
    exact (ih hm' (Nat.le_of_succ_le hrest)).cons
  | case9 second after hsecond ih =>
    -- the character that shows that the formula is not displayed is read in a round of its own
    obtain ⟨steps, rfl, hrest⟩ := hsucc hsteps
    obtain ⟨m₁, hround, hm₁⟩ :=
      h.round_shift fun t read hread => hread.mathShift_once hs (by simpa using hsecond) t
    obtain ⟨m', hletter, hm'⟩ := hm₁.round_letter hsecond
    obtain ⟨steps, rfl, hafter⟩ := hsucc hrest
    rw [toEnd_of_round hround, toEnd_of_round hletter]
    exact (ih hm' hafter).cons
  | case10 inside c rest hc ih =>
    obtain ⟨steps, rfl, hrest⟩ := hsucc hsteps
    obtain ⟨m', hround, hm'⟩ := h.round_letter hc
    rw [toEnd_of_round hround]
    exact ih hm' hrest

end Reads

/-! ### A document -/

/-- Letters are letters, and `$` is a math shift. -/
def KnowsSigns (code : Char → CatCode) : Prop :=
  code '$' = .mathShift ∧ ∀ c : Char, c.isAlpha = true → code c = .letter

/-- A text of letters and math shifts is read character by character. -/
theorem items_of_signs {code : Char → CatCode} (hcode : KnowsSigns code)
    (htext : ∀ c ∈ text, IsSign c) {lx : Lexer} (hrest : lx.rest = text) :
    ∃ ts : List Token, lx.items code = ts.map .ok ∧ ts.map Token.value = text.map signValue := by
  induction text generalizing lx with
  | nil => exact ⟨[], Lexer.items_of_end (Lexer.next_of_end hrest), rfl⟩
  | cons c text ih =>
    obtain ⟨hc, htext⟩ := List.forall_mem_cons.1 htext
    obtain ⟨category, hcategory, hspace, hsup, hsign⟩ : ∃ category : CharCategory,
        code c = category.code ∧ category ≠ .space ∧ category ≠ .superscript ∧
          signValue c = .char category c := by
      rcases hc with rfl | hc
      · exact ⟨.mathShift, hcode.1, nofun, nofun, rfl⟩
      · exact ⟨.letter, hcode.2 c hc, nofun, nofun, by rw [signValue, if_neg (ne_shift_of_isAlpha hc)]⟩
    have hnext := Lexer.next_of_char hcategory hspace hsup hrest
    let after : Lexer := { lx.moveTo text c.utf8Size with state := .midLine }
    have hafter : after.rest = text := rfl
    obtain ⟨ts, hitems, hvalues⟩ := ih htext hafter
    refine ⟨⟨.char category c, lx.keys.keyAt lx.offset⟩ :: ts, ?_, ?_⟩
    · rw [Lexer.items_of_token hnext, hitems]
      rfl
    · rw [List.map_cons, List.map_cons, hvalues, hsign]

end Formulas

/-- The machine awaits a document in text mode: nothing is left to be read, no group is open, and letters
and `$` have the categories that they have from the start. -/
structure Machine.AwaitsFormulas (m : Machine) : Prop where
  going : m.cancellation.raised = false
  remaining : m.remaining = []
  groups : m.scopes.groups = []
  mode : m.scopes.currentSettings.mode = .text
  signs : Formulas.KnowsSigns m.codeOf

namespace Session

open Formulas

variable {m : Machine}

theorem reads_opened (hm : m.AwaitsFormulas) (origin : Origin) {content : String}
    (hcontent : ∀ c ∈ content.toList, IsSign c) :
    Reads m.scopes none content.toList []
      (opened .dropping origin content
        { m with handlers := .dropping, expansions := 0, history := [] }) where
  going := hm.going
  handlers := rfl
  within := rfl
  remaining := by
    let keys : KeyRange := (m.atlas.register origin content.toList).1
    have hstart : (Lexer.start content.toList keys m.config.retainComments).rest = content.toList := rfl
    obtain ⟨ts, hitems, hvalues⟩ := items_of_signs hm.signs hcontent hstart
    refine ⟨ts, ?_, hvalues⟩
    have hopened : (opened .dropping origin content
        { m with handlers := .dropping, expansions := 0, history := [] }).remaining =
        (Lexer.start content.toList keys m.config.retainComments).items m.codeOf ++ m.remaining := rfl
    rw [hopened, hm.remaining, List.append_nil, hitems]
  marks := rfl

/-- When the formula that is open is closed, what is subject to grouping is as before. -/
theorem scopes_unwind {s : Scopes} (hs : s.groups = []) {inside : Option Bool}
    (h : IsWithin s inside m.scopes) : (unwind m).scopes = s := by
  have hclose : (unwind m).scopes = (closeGroups m.scopes.groups { m with input := {} }).scopes := rfl
  rw [hclose]
  cases inside with
  | none =>
    have hgroups : m.scopes.groups = [] := by rw [show m.scopes = s from h, hs]
    rw [hgroups]
    exact h
  | some display =>
    obtain ⟨g, hg, hscopes⟩ := h
    have hgroups : m.scopes.groups = [g] := by
      rw [hscopes]
      exact congrArg (g :: ·) hs
    rw [hgroups]
    show m.scopes.closeGroup = s
    rw [hscopes, Scopes.closeGroup_openGroup]

/-- What reading a document of letters and math shifts comes to. -/
theorem comesTo_document (hm : m.AwaitsFormulas) (origin : Origin) {content : String}
    (hcontent : ∀ c ∈ content.toList, IsSign c) :
    ComesTo m.scopes []
      (document .dropping origin content { m with handlers := .dropping, expansions := 0, history := [] })
      (scan none content.toList) := by
  have hsteps : content.toList.length ≤ documentLimit content := by
    unfold documentLimit
    exact Nat.le_add_left ..
  rw [document_eval]
  exact (reads_opened hm origin hcontent).comesTo hm.groups hsteps

/-- A document that is read to its end gives out the groups that are in its history. -/
theorem marks_parse {later : List GroupMark} (hm : m.scopes.groups = []) (origin : Origin)
    {content : String} (h : ComesTo m.scopes []
      (document .dropping origin content { m with handlers := .dropping, expansions := 0, history := [] })
      (some later)) :
    ∃ events, (parse .dropping origin content m).2.output.events = events ++ m.output.events ∧
      (events.filterMap GroupMark.ofEvent?).reverse = later := by
  let begun : Machine := { m with handlers := .dropping, expansions := 0, history := [] }
  obtain ⟨-, hread⟩ := h
  obtain ⟨changes, events, -, hhistory, -, hevents, hmarks⟩ :=
    (evolves_document .dropping origin content begun).tracks
  have hchanges : changes.filterMap GroupMark.ofChange? = later.reverse := by
    rw [← List.append_nil later.reverse, ← hread.marks, hhistory, List.append_nil]
  have hgroups : (document .dropping origin content begun).2.scopes.groups = [] :=
    (congrArg Scopes.groups hread.within).trans hm
  refine ⟨.endParse :: events, ?_, ?_⟩
  · show Event.endParse :: (unwind (document .dropping origin content begun).2).output.events = _
    rw [events_unwind, hgroups, hevents]
    rfl
  · rw [List.filterMap_cons_none rfl, hmarks, hchanges, List.reverse_reverse]

/-- **A document of letters and math shifts is read without a failure exactly when it is a row of letters
and formulas.** Then it has exactly the groups of its formulas, one after the other. In any case all that
is subject to grouping is afterwards as it was, so that the machine is in text mode again. -/
theorem parse_formulas (hm : m.AwaitsFormulas) (origin : Origin) {content : String}
    (hcontent : ∀ c ∈ content.toList, IsSign c) :
    ((parse .dropping origin content m).1 = .ok () ↔ ∃ pieces, CutInto content.toList pieces) ∧
      (∀ pieces, CutInto content.toList pieces →
        ∃ events, (parse .dropping origin content m).2.output.events = events ++ m.output.events ∧
          (events.filterMap GroupMark.ofEvent?).reverse = pieces.flatMap Piece.marks) ∧
      ((∀ pieces, ¬ CutInto content.toList pieces) →
        ∃ d, (parse .dropping origin content m).1 = .error (.failed d)) ∧
      (parse .dropping origin content m).2.scopes = m.scopes ∧
      (parse .dropping origin content m).2.scopes.currentSettings.mode = .text := by
  have hcomes := comesTo_document hm origin hcontent
  have hscan := isSome_scan_iff hcontent
  have hscopes : (parse .dropping origin content m).2.scopes = m.scopes := by
    obtain ⟨inside, hwithin⟩ := hcomes.within
    exact scopes_unwind hm.groups hwithin
  refine ⟨?_, ?_, ?_, hscopes, by rw [hscopes, hm.mode]⟩
  · rw [← hscan]
    cases hresult : scan none content.toList with
    | some later =>
      rw [hresult] at hcomes
      exact iff_of_true hcomes.1 rfl
    | none =>
      rw [hresult] at hcomes
      obtain ⟨d, -, -, -, herror, -⟩ := hcomes
      refine iff_of_false (fun hok => ?_) Bool.false_ne_true
      cases herror.symm.trans hok
  · intro pieces hpieces
    rw [scan_pieces hpieces] at hcomes
    exact marks_parse hm.groups origin hcomes
  · intro hnone
    cases hresult : scan none content.toList with
    | some later =>
      rw [hresult] at hscan
      obtain ⟨pieces, hpieces⟩ := hscan.1 rfl
      exact absurd hpieces (hnone pieces)
    | none =>
      rw [hresult] at hcomes
      obtain ⟨d, -, -, -, herror, -⟩ := hcomes
      exact ⟨d, herror⟩

theorem awaitsFormulas_standard : Machine.standard.AwaitsFormulas where
  going := rfl
  remaining := rfl
  groups := rfl
  mode := rfl
  signs := by
    refine ⟨by decide, fun c hc => ?_⟩
    have hletter := (Text.isAlphabetic_of_lt (toNat_lt_of_isAlpha hc)).trans hc
    exact (CatCode.ofChar_eq_letter_iff c).2 hletter

/-- In `a$b$$$c$$` the middle math shifts are cut after the first one. -/
theorem standard_formulas :
    let content := "a$b$$$c$$"
    let pieces : List Piece := [.letter 'a', .formula false ['b'], .formula true ['c']]
    Machine.standard.AwaitsFormulas ∧ (∀ c ∈ content.toList, IsSign c) ∧
      CutInto content.toList pieces ∧
      (parse .dropping (.text "formulas") content Machine.standard).1 = .ok () := by
  intro content pieces
  have hsigns : ∀ c ∈ content.toList, IsSign c := by
    unfold IsSign
    exact List.forall_iff_forall_mem.1 (by decide)
  have hpieces : CutInto content.toList pieces := by
    refine ⟨?_, by decide⟩
    simp [pieces, Piece.WellFormed]
  refine ⟨awaitsFormulas_standard, hsigns, hpieces, ?_⟩
  exact (parse_formulas awaitsFormulas_standard (.text "formulas") hsigns).1.2 ⟨pieces, hpieces⟩

end Session

end Gullet
