import Gullet.Proofs.Input.Taking
import Gullet.Proofs.Lexer.Rereading

/-!
# The remaining stream

A stack of sources stands for one stream: the pending tokens of each source from the top down, each
followed by what its file still lexes to, as far as the topmost region. Reading takes the head of this
stream, whichever source it comes from and whatever is dropped on the way there; and tokens that are put
on the topmost source stand in front of the stream, since nothing above the source that a token came from
has anything left to give.

Where a file does not lex, the stream has a failure in place of a token. Reading goes on behind it.
-/

namespace Gullet

namespace Lexer

variable {code : Char → CatCode} {lx lx' : Lexer} {r : ReadChar} {t : Token} {e : LexError}

/-- What a source gives at one place: a token, or a failure. -/
abbrev Item := Except LexError Token

/-- A failure takes at least one byte too. -/
theorem advances_of_error (h : lx.next code = (.error e, lx')) : lx.Advances lx' := by
  fun_induction Lexer.next lx code with
  | case1 => cases h
  | case2 => cases h
  | case3 lx r hr e' lx₁ hs =>
    have hstep := advances_step hr
    rw [hs] at hstep
    cases h
    exact hstep
  | case4 lx r hr lx₁ hs hlt ih =>
    have hstep := advances_step hr
    rw [hs] at hstep
    exact hstep.trans_passes (ih h).toPasses

theorem Advances.byteSize_lt (h : lx.Advances lx') : byteSize lx'.rest < byteSize lx.rest := by
  have hbytes : lx'.offset + byteSize lx'.rest = lx.offset + byteSize lx.rest := h.bytes
  have hlt := h.strict
  omega

theorem advances_of_token (h : lx.next code = (.ok (some t), lx')) : lx.Advances lx' := by
  obtain ⟨hpasses, htoken, -⟩ := lx.passes_next code
  rw [h] at hpasses htoken
  exact ⟨hpasses, htoken t rfl⟩

/-- All that the source still gives. -/
def items (lx : Lexer) (code : Char → CatCode) : List Item :=
  match h : lx.next code with
  | (.ok none, _) => []
  | (.ok (some t), lx') =>
    have := (advances_of_token h).byteSize_lt
    .ok t :: items lx' code
  | (.error e, lx') =>
    have := (advances_of_error h).byteSize_lt
    .error e :: items lx' code
termination_by byteSize lx.rest

theorem items_of_end (h : lx.next code = (.ok none, lx')) : lx.items code = [] := by
  rw [items]
  split <;> simp_all

theorem items_of_token (h : lx.next code = (.ok (some t), lx')) :
    lx.items code = .ok t :: lx'.items code := by
  rw [items]
  split <;> simp_all

theorem items_of_error (h : lx.next code = (.error e, lx')) :
    lx.items code = .error e :: lx'.items code := by
  rw [items]
  split <;> simp_all

/-- A source that has been read to its end gives nothing more. -/
theorem items_after_end (h : lx.next code = (.ok none, lx')) : lx'.items code = [] := by
  obtain ⟨-, -, hend⟩ := lx.passes_next code
  rw [h] at hend
  exact items_of_end (next_of_end (hend rfl))

/-! ### Comments that are kept -/

/-- The lexer with other comments kept so far. -/
def keeping (lx : Lexer) (cs : List Comment) : Lexer := { lx with comments := cs }

theorem controlSequence_keeping (lx : Lexer) (code : Char → CatCode) (cs : List Comment)
    (key : SourceKey) :
    (lx.keeping cs).controlSequence code key =
      ((lx.controlSequence code key).1, (lx.controlSequence code key).2.keeping cs) := by
  unfold controlSequence keeping
  dsimp only
  split
  · rfl
  · split <;> rfl

theorem step_keeping (lx : Lexer) (code : Char → CatCode) (r : ReadChar) (cs : List Comment) :
    ∃ cs', (lx.keeping cs).step code r = ((lx.step code r).1, (lx.step code r).2.keeping cs') := by
  have hname := (lx.moveTo r.rest r.width).controlSequence_keeping code cs
    (lx.keys.keyAt lx.offset)
  have hmove : (lx.keeping cs).moveTo r.rest r.width = (lx.moveTo r.rest r.width).keeping cs := rfl
  have hkey : (lx.keeping cs).keys.keyAt (lx.keeping cs).offset = lx.keys.keyAt lx.offset := rfl
  unfold step
  dsimp only
  rw [hmove, hkey, hname]
  split
  · refine ⟨cs, ?_⟩
    rcases (lx.moveTo r.rest r.width).controlSequence code (lx.keys.keyAt lx.offset) with ⟨⟨⟩, lx'⟩
    · rfl
    · rfl
  · refine ⟨cs, ?_⟩
    by_cases hstate : lx.state = .midLine
    · simp [keeping, moveTo, hstate]
    · simp [keeping, moveTo, hstate]
  · refine ⟨cs, ?_⟩
    cases hstate : lx.state <;> simp [keeping, moveTo, hstate]
  · cases hretain : lx.retain with
    | false => exact ⟨cs, by simp [keeping, moveTo, hretain]⟩
    | true =>
      by_cases hwidth : (skipLine lx.rest r.rest r.width).2 < r.width
      · exact ⟨cs, by simp [keeping, moveTo, hretain, hwidth]⟩
      · exact ⟨⟨commentText lx.rest r.rest, lx.keys.keyAt lx.offset⟩ :: cs,
          by simp [keeping, moveTo, hretain, hwidth]⟩
  · exact ⟨cs, rfl⟩
  · exact ⟨cs, rfl⟩
  · refine ⟨cs, ?_⟩
    split <;> rfl

/-- The comments kept so far are carried along. -/
theorem next_keeping (lx : Lexer) (code : Char → CatCode) (cs : List Comment) :
    ∃ cs', (lx.keeping cs).next code = ((lx.next code).1, (lx.next code).2.keeping cs') := by
  fun_induction Lexer.next lx code generalizing cs with
  | case1 lx hr =>
    refine ⟨cs, ?_⟩
    rw [Lexer.next]
    split
    · rfl
    case h_2 r hr' => cases hr.symm.trans hr'
  | case2 lx r hr t lx' hs =>
    obtain ⟨cs', hs'⟩ := lx.step_keeping code r cs
    rw [hs] at hs'
    exact ⟨cs', next_of_token hr hs'⟩
  | case3 lx r hr e lx' hs =>
    obtain ⟨cs', hs'⟩ := lx.step_keeping code r cs
    rw [hs] at hs'
    exact ⟨cs', next_of_fail hr hs'⟩
  | case4 lx r hr lx' hs hlt ih =>
    obtain ⟨cs', hs'⟩ := lx.step_keeping code r cs
    rw [hs] at hs'
    obtain ⟨cs'', hnext⟩ := ih cs'
    have hskip : (lx.keeping cs).next code = (lx'.keeping cs').next code := next_of_skip hr hs'
    exact ⟨cs'', hskip.trans hnext⟩

/-- What a source still gives does not depend on the comments kept so far. -/
theorem items_keeping (lx : Lexer) (code : Char → CatCode) (cs : List Comment) :
    (lx.keeping cs).items code = lx.items code := by
  fun_induction items lx code generalizing cs with
  | case1 lx lx' hnext =>
    obtain ⟨cs', h⟩ := lx.next_keeping code cs
    rw [hnext] at h
    exact items_of_end h
  | case2 lx t lx' hnext hlt ih =>
    obtain ⟨cs', h⟩ := lx.next_keeping code cs
    rw [hnext] at h
    rw [items_of_token h, ih]
  | case3 lx e lx' hnext hlt ih =>
    obtain ⟨cs', h⟩ := lx.next_keeping code cs
    rw [hnext] at h
    rw [items_of_error h, ih]

end Lexer

namespace Input

variable {code : Char → CatCode} {sources : List InputSource} {t : Token} {e : LexError}

/-- The stream that a stack of sources stands for. -/
def remaining (code : Char → CatCode) : List InputSource → List Lexer.Item
  | [] => []
  | s :: below =>
    s.pending.tokens.map .ok ++
      match s.kind with
      | .region _ => []
      | .file lexer => lexer.items code ++ remaining code below
      | .bottom | .capture => remaining code below

/-- What reading has taken from the remaining stream. -/
def Reading.items (r : Reading) : List Lexer.Item :=
  match r.result with
  | .ok t? => t?.toList.map .ok
  | .error e => [.error e]

/-- **Reading takes the head of the remaining stream**, and nothing only where it is empty. -/
theorem remaining_read (code : Char → CatCode) (report onTop : Bool) (sources : List InputSource) :
    remaining code sources =
        (read code report onTop sources).items ++
          remaining code (read code report onTop sources).sources ∧
      ((read code report onTop sources).result = .ok none → remaining code sources = []) := by
  induction sources generalizing onTop with
  | nil => exact ⟨rfl, fun _ => rfl⟩
  | cons s below ih =>
    unfold read
    cases hpop : s.pending.pop? with
    | some popped =>
      obtain ⟨t, pending⟩ := popped
      have htokens := Pending.tokens_of_pop? hpop
      refine ⟨?_, fun hnone => by cases hnone⟩
      dsimp only [Reading.items, Option.toList_some]
      rw [remaining, remaining, htokens]
      rfl
    | none =>
      have hp := (Pending.pop?_eq_none_iff s.pending).1 hpop
      cases hk : s.kind with
      | region mode =>
        have hempty : remaining code (s :: below) = [] := by simp [remaining, hp, hk]
        exact ⟨by simp [Reading.items, hempty], fun _ => hempty⟩
      | bottom | capture =>
        -- the source stands for nothing, before as after
        have hpass (rest : List InputSource) : remaining code (s :: rest) = remaining code rest := by
          simp [remaining, hp, hk]
        obtain ⟨hhead, hend⟩ := ih false
        dsimp only
        rw [hpass, hpass]
        exact ⟨hhead, hend⟩
      | file lexer =>
        have hfile (lexer' : Lexer) (rest : List InputSource) :
            remaining code ({ s with kind := .file lexer' } :: rest) =
              lexer'.items code ++ remaining code rest := by
          simp [remaining, hp]
        have hbefore : remaining code (s :: below) = lexer.items code ++ remaining code below := by
          simp [remaining, hp, hk]
        have hkept : (if report then (lexer.next code).2.takeComments
            else ([], (lexer.next code).2)).2.items code = (lexer.next code).2.items code := by
          cases report with
          | false => rfl
          | true => exact Lexer.items_keeping _ code []
        rw [hbefore]
        dsimp only
        cases hresult : (lexer.next code).1 with
        | error e =>
          have hitems := Lexer.items_of_error (Prod.ext hresult rfl)
          refine ⟨?_, fun hnone => by cases hnone⟩
          dsimp only [Reading.items]
          rw [hfile, hkept, hitems]
          rfl
        | ok t? =>
          cases t? with
          | some t =>
            have hitems := Lexer.items_of_token (Prod.ext hresult rfl)
            refine ⟨?_, fun hnone => by cases hnone⟩
            dsimp only [Reading.items, Option.toList_some]
            rw [hfile, hkept, hitems]
            rfl
          | none =>
            -- an exhausted file stands for nothing, whether it is dropped or kept
            have hitems := Lexer.items_of_end (Prod.ext hresult rfl)
            have hafter := Lexer.items_after_end (Prod.ext hresult rfl)
            rw [hitems, List.nil_append]
            dsimp only
            split
            · exact ih true
            · obtain ⟨hhead, hend⟩ := ih false
              refine ⟨?_, hend⟩
              dsimp only
              rw [hfile, hkept, hafter, List.nil_append]
              exact hhead

theorem remaining_pushAll (i : Input) (ts : List Token) :
    remaining code (i.pushAll ts).sources = ts.map .ok ++ remaining code i.sources := by
  rcases sources_pushAll i ts with ⟨hi, h⟩ | ⟨s, below, hi, h⟩
  · rw [hi, h]
    rfl
  · rw [hi, h]
    simp only [remaining, Pending.tokens_pushAll, List.map_append, List.append_assoc]

end Input

end Gullet
