import Gullet.Proofs.Lexer.Rereading
import Gullet.Proofs.Lexer.Stretches
import Gullet.Proofs.Source.Tracing

/-!
# The lines of a source

The lexer and the atlas divide a source into lines in different ways. To the lexer, a line ends with a
line feed, with a carriage return, or with both, the line feed last. The atlas numbers lines by the line
feeds alone. So the two come to the same number for a token exactly if every carriage return before the
token is followed by a line feed, and otherwise the atlas is behind by the number of those that are not.
-/

namespace Gullet

/-- The ends of the lines of a text that starts at `offset`, as the lexer skips one line after the other:
for each of them the offset just behind it. -/
def lineEnds (offset : Nat) (chars : List Char) : List Nat :=
  match chars with
  | [] => []
  | c :: rest =>
    if (c :: rest).any isLineEnd then
      let line := skipLine (c :: rest) rest c.utf8Size
      (offset + line.2) :: lineEnds (offset + line.2) line.1
    else []
termination_by chars.length
decreasing_by exact length_skipLine (Nat.lt_succ_self _)

/-- The number of carriage returns in a text that no line feed follows, where `after` stands behind the
text. -/
def loneReturns : (before after : List Char) → Nat
  | [], _ => 0
  | c :: rest, after =>
    (if c = '\r' ∧ (rest ++ after).head? ≠ some '\n' then 1 else 0) + loneReturns rest after

/-- The text ends a line when the other one follows it. -/
inductive EndsLine : (ended after : List Char) → Prop where
  | feed (after : List Char) : EndsLine ['\n'] after
  | both (after : List Char) : EndsLine ['\r', '\n'] after
  | alone {after : List Char} (h : after.head? ≠ some '\n') : EndsLine ['\r'] after

variable {before after line ended chars : List Char} {c : Char} {offset : Nat}

/-! ### Lines and their ends -/

/-- What is skipped at the end of a line ends the line. -/
theorem exists_endsLine (hc : isLineEnd c = true) (rest : List Char) :
    ∃ ended after, c :: rest = ended ++ after ∧ EndsLine ended after ∧
      afterLineEnd (c :: rest) = (after, byteSize ended) := by
  rcases Bool.or_eq_true_iff.1 hc with hc | hc
  · obtain rfl := of_decide_eq_true hc
    by_cases hfeed : rest.head? = some '\n'
    · obtain ⟨after, rfl⟩ := List.head?_eq_some_iff.1 hfeed
      exact ⟨_, after, rfl, .both after, rfl⟩
    · refine ⟨_, rest, rfl, .alone hfeed, ?_⟩
      unfold afterLineEnd
      split
      case h_1 heq =>
        obtain rfl := (List.cons.inj heq).2
        exact absurd rfl hfeed
      case h_2 heq =>
        obtain rfl := (List.cons.inj heq).2
        rfl
      case h_3 heq => cases heq
  · obtain rfl := of_decide_eq_true hc
    exact ⟨_, rest, rfl, .feed rest, rfl⟩

/-- A text in which a line ends falls into the line, its end, and what the lexer goes on with. -/
theorem exists_line {rest : List Char} (h : (c :: rest).any isLineEnd = true) :
    ∃ line ended after, c :: rest = line ++ ended ++ after ∧ (∀ x ∈ line, isLineEnd x = false) ∧
      EndsLine ended after ∧
      skipLine (c :: rest) rest c.utf8Size = (after, byteSize (line ++ ended)) := by
  by_cases hc : isLineEnd c = true
  · obtain ⟨ended, after, hsplit, hends, hafter⟩ := exists_endsLine hc rest
    refine ⟨[], ended, after, hsplit, fun x hx => (nomatch hx), hends, ?_⟩
    rw [skipLine, List.head?_cons, Option.any_some, if_pos hc, hafter]
    rfl
  · -- the line goes on to the first character that ends one
    have hrest : rest.any isLineEnd = true := by
      rw [List.any_cons, eq_false_of_ne_true hc, Bool.false_or] at h
      exact h
    have hhead := List.head?_dropWhile_not (!isLineEnd ·) rest
    cases hdrop : rest.dropWhile (!isLineEnd ·) with
    | nil =>
      obtain ⟨x, hx, hend⟩ := List.any_eq_true.1 hrest
      have hnot := List.dropWhile_eq_nil_iff.1 hdrop x hx
      rw [hend] at hnot
      cases hnot
    | cons x xs =>
      rw [hdrop] at hhead
      have hx : isLineEnd x = true := by simpa using hhead
      obtain ⟨ended, after, hsplit, hends, hafter⟩ := exists_endsLine hx xs
      refine ⟨c :: rest.takeWhile (!isLineEnd ·), ended, after, ?_, ?_, hends, ?_⟩
      · rw [List.append_assoc, ← hsplit, ← hdrop, List.cons_append, List.takeWhile_append_dropWhile]
      · refine List.forall_mem_cons.2 ⟨eq_false_of_ne_true hc, fun y hy => ?_⟩
        simpa using List.mem_takeWhile_imp hy
      · rw [skipLine, List.head?_cons, Option.any_some, if_neg hc, hdrop, hafter]
        simp [Nat.add_assoc]

/-- No line ends before the text starts. -/
theorem le_of_mem_lineEnds {e : Nat} (h : e ∈ lineEnds offset chars) : offset ≤ e := by
  fun_induction lineEnds offset chars with
  | case1 => cases h
  | case2 offset c rest hany line ih =>
    rcases List.mem_cons.1 h with rfl | h
    · exact Nat.le_add_right _ _
    · exact Nat.le_trans (Nat.le_add_right _ _) (ih h)
  | case3 => cases h

/-! ### Counting ends -/

theorem loneReturns_append (before between after : List Char) :
    loneReturns (before ++ between) after =
      loneReturns before (between ++ after) + loneReturns between after := by
  induction before with
  | nil => simp [loneReturns]
  | cons c rest ih => simp [loneReturns, ih, Nat.add_assoc]

/-- The line feeds of a text, and the carriage returns that stand without one. -/
theorem count_of_none (h : ∀ x ∈ chars, isLineEnd x = false) (after : List Char) :
    chars.count '\n' + loneReturns chars after = 0 := by
  induction chars with
  | nil => rfl
  | cons c rest ih =>
    obtain ⟨hc, hrest⟩ := List.forall_mem_cons.1 h
    have hreturn : c ≠ '\r' := by
      rintro rfl
      cases hc
    have hfeed : c ≠ '\n' := by
      rintro rfl
      cases hc
    have hih := ih hrest
    rw [List.count_cons_of_ne (Ne.symm hfeed.symm), loneReturns, if_neg fun h => hreturn h.1]
    omega

theorem count_of_endsLine (h : EndsLine ended after) :
    ended.count '\n' + loneReturns ended after = 1 := by
  cases h with
  | feed => rfl
  | both => rfl
  | alone h => simp [loneReturns, h]

/-- Before a line has ended there is neither a line feed in it nor a carriage return without one. -/
theorem count_of_proper {rest : List Char} (hline : ∀ x ∈ line, isLineEnd x = false)
    (hends : EndsLine ended rest) (h : before ++ after = line ++ ended) (hafter : after ≠ []) :
    before.count '\n' + loneReturns before (after ++ rest) = 0 := by
  rcases List.append_eq_append_iff.1 h with ⟨left, rfl, -⟩ | ⟨begun, rfl, hended⟩
  · exact count_of_none (fun x hx => hline x (List.mem_append_left _ hx)) _
  · have hbegun : begun.count '\n' + loneReturns begun (after ++ rest) = 0 := by
      obtain ⟨a, as, rfl⟩ := List.exists_cons_of_ne_nil hafter
      cases hends with
      | both =>
        rcases List.cons_eq_append_iff.1 hended with ⟨rfl, -⟩ | ⟨begun, rfl, hfeed⟩
        · rfl
        · rcases List.cons_eq_append_iff.1 hfeed with ⟨rfl, ha⟩ | ⟨begun, rfl, hnil⟩
          · rw [ha]
            rfl
          · cases List.append_eq_nil_iff.1 hnil.symm |>.2
      | _ =>
        rcases List.cons_eq_append_iff.1 hended with ⟨rfl, -⟩ | ⟨begun, rfl, hnil⟩
        · rfl
        · cases List.append_eq_nil_iff.1 hnil.symm |>.2
    have hnone := count_of_none hline (begun ++ (after ++ rest))
    rw [List.count_append, loneReturns_append]
    omega

/-- Where a text is split in two and a line of it ends: the line has ended in the first part, or it has not. -/
theorem split_at_line {left : List Char} (h : before ++ after = line ++ ended ++ left) :
    (∃ done, before = line ++ ended ++ done ∧ done ++ after = left) ∨
      ∃ rest ≠ [], before ++ rest = line ++ ended ∧ after = rest ++ left := by
  rcases List.append_eq_append_iff.1 h with ⟨rest, hrest, hafter⟩ | ⟨done, hdone, hleft⟩
  · by_cases hnil : rest = []
    · subst hnil
      rw [List.append_nil] at hrest
      exact .inl ⟨[], by rw [hrest, List.append_nil], hafter⟩
    · exact .inr ⟨rest, hnil, hrest.symm, hafter⟩
  · exact .inl ⟨done, hdone, hleft.symm⟩

/-- Before a line has ended, no end is counted. -/
theorem countP_of_proper {rest : List Char} (h : before ++ rest = line ++ ended) (hrest : rest ≠ [])
    (ends : List Nat) (hends : ∀ e ∈ ends, offset + byteSize (line ++ ended) ≤ e) :
    ends.countP (· ≤ offset + byteSize before) = 0 := by
  have hsize : byteSize before < byteSize (line ++ ended) := by
    obtain ⟨x, xs, rfl⟩ := List.exists_cons_of_ne_nil hrest
    have hx := x.utf8Size_pos
    rw [← h, byteSize_append, byteSize_cons]
    omega
  refine List.countP_eq_zero.2 fun e he => ?_
  have hle := hends e he
  rw [decide_eq_true_iff]
  omega

/-- **The ends of lines in the first part of a text** are its line feeds, and the carriage returns in it
that no line feed follows. The induction is on the lines, as the lexer skips them. -/
theorem countP_lineEnds (offset : Nat) (before after : List Char) :
    (lineEnds offset (before ++ after)).countP (· ≤ offset + byteSize before) =
      before.count '\n' + loneReturns before after := by
  generalize hchars : before ++ after = chars
  fun_induction lineEnds offset chars generalizing before with
  | case1 =>
    obtain ⟨rfl, rfl⟩ := List.append_eq_nil_iff.1 hchars
    rfl
  | case2 offset c rest hany next ih =>
    obtain ⟨line, ended, left, hsplit, hline, hends, hskip⟩ := exists_line hany
    have hnext : next = (left, byteSize (line ++ ended)) := hskip
    rw [hnext] at ih ⊢
    dsimp only at ih ⊢
    rw [hsplit] at hchars
    rcases split_at_line hchars with ⟨done, rfl, hdone⟩ | ⟨rest, hne, hrest, rfl⟩
    · have hended := count_of_endsLine (hdone ▸ hends : EndsLine ended (done ++ after))
      have hnone := count_of_none hline (ended ++ (done ++ after))
      have hih := ih done hdone
      rw [Nat.add_assoc, ← byteSize_append] at hih
      rw [List.countP_cons_of_pos (by simp [byteSize_append]), hih]
      simp only [List.count_append, loneReturns_append, List.append_assoc]
      omega
    · rw [count_of_proper hline hends hrest hne]
      refine countP_of_proper hrest hne _ fun e he => ?_
      rcases List.mem_cons.1 he with rfl | he
      · exact Nat.le_refl _
      · exact le_of_mem_lineEnds he
  | case3 offset c rest hany =>
    have hnone : ∀ x ∈ before ++ after, isLineEnd x = false := by
      rw [hchars]
      simpa using hany
    exact (count_of_none (fun x hx => hnone x (List.mem_append_left _ hx)) after).symm

/-- Every carriage return in a text is followed by a line feed if none of them stands alone. -/
theorem loneReturns_eq_zero_iff :
    loneReturns before after = 0 ↔
      ∀ first second, before = first ++ '\r' :: second → (second ++ after).head? = some '\n' := by
  constructor
  · rintro h first second rfl
    rw [loneReturns_append, loneReturns] at h
    by_contra hne
    rw [if_pos ⟨rfl, hne⟩] at h
    omega
  · intro h
    induction before with
    | nil => rfl
    | cons c rest ih =>
      have hrest := ih fun first second heq => h (c :: first) second (by rw [heq, List.cons_append])
      have hc : ¬ (c = '\r' ∧ (rest ++ after).head? ≠ some '\n') := by
        rintro ⟨rfl, hne⟩
        exact hne (h [] rest rfl)
      rw [loneReturns, if_neg hc, hrest]

/-- The line of a place is numbered by the line feeds before it. -/
theorem Cut.lineNumber_place {content : List Char} (h : before ++ after = content)
    (cut : Cut content (byteSize before)) (origin : Origin) (value : String) :
    (cut.place origin value).lineNumber = before.count '\n' + 1 := by
  have hsplit : splitAtByte (byteSize before) (before ++ after) = (before, after) := by
    refine splitAtByte_append_of_le (Nat.le_refl _) fun c _ => ?_
    have hc := c.utf8Size_pos
    omega
  rw [h, cut.splitAtByte_eq] at hsplit
  rw [Cut.place, (Prod.mk.inj hsplit).1]

namespace Lexer

/-! ### The lines of tokens -/

variable {lx lx' : Lexer} {code : Char → CatCode} {r : ReadChar} {t : Token}

theorem key_of_controlSequence {key : SourceKey} (h : (lx.controlSequence code key).1 = .ok t) :
    t.key = key := by
  unfold controlSequence at h
  split at h
  · cases h
  · split at h <;>
    · cases h
      rfl

/-- A token carries the key of the byte at which the lexer stood. -/
theorem key_of_step (h : (lx.step code r).1 = .token t) : t.key = lx.keys.keyAt lx.offset := by
  unfold step at h
  dsimp only at h
  split at h
  · split at h
    case h_1 hcs =>
      cases h
      exact key_of_controlSequence (congrArg Prod.fst hcs)
    case h_2 => cases h
  · split at h
    · cases h
      rfl
    · cases h
  · split at h
    · cases h
      rfl
    · cases h
      rfl
    · cases h
  · split at h
    · split at h <;> cases h
    · cases h
  · cases h
  · cases h
  · split at h
    · cases h
      rfl
    · cases h

theorem Leads.keys {ss : List Stretch} (h : Leads lx ss lx') :
    lx'.keys = lx.keys ∧ ∀ s ∈ ss, s.before.keys = lx.keys := by
  induction h with
  | nil => exact ⟨rfl, fun s hs => nomatch hs⟩
  | @cons s ss lx' _ ih =>
    have hkeys : s.after.keys = s.before.keys := (advances_step s.read).keys
    rw [hkeys] at ih
    refine ⟨ih.1, List.forall_mem_cons.2 ⟨rfl, ih.2⟩⟩

/-- A token that a call gives begins where the last stretch of the call begins. -/
theorem exists_start_of_next {content : List Char} (hlx : lx.LiesIn content)
    (h : (lx.next code).1 = .ok (some t)) :
    ∃ before after, before ++ after = content ∧ t.key = lx.keys.keyAt (byteSize before) := by
  have hleads := lx.leads_stretches code
  obtain ⟨hresult, -⟩ := lx.result_next code
  rw [h] at hresult
  cases hlast : (lx.stretches code).getLast? with
  | none =>
    rw [hlast] at hresult
    cases hresult
  | some s =>
    rw [hlast] at hresult
    have hs := List.mem_of_getLast? hlast
    obtain ⟨before, hbefore, hoffset⟩ := ((hleads.liesIn hlx).2 s hs).1
    have htoken : (s.before.step s.code s.first).1 = .token t := by
      cases houtcome : (s.before.step s.code s.first).1 with
      | token u =>
        have hresult : Except.ok (some t) = s.outcome.result := hresult
        rw [Stretch.outcome, houtcome] at hresult
        cases hresult
        rfl
      | _ =>
        have hresult : Except.ok (some t) = s.outcome.result := hresult
        rw [Stretch.outcome, houtcome] at hresult
        cases hresult
    refine ⟨before, s.before.rest, hbefore, ?_⟩
    rw [key_of_step htoken, hleads.keys.2 s hs, hoffset]

/-- **The lines that tokens are traced to.** Whatever the categories are: a token that is read from a
source begins between two parts of it, and the number of the line that it is traced to, together with the
number of carriage returns in the first part that no line feed follows, is one more than the number of
lines that end there as the lexer skips them. So atlas and lexer agree on the line exactly if every
carriage return before the token is followed by a line feed. -/
theorem lineNumber_trace {a : Atlas} {origin : Origin} {content : List Char} {range : KeyRange}
    (ha : a.Sound) (hheld : a.Holds origin content range) (retain : Bool)
    (codes : List (Char → CatCode))
    (h : ((afterCalls codes (start content range retain)).next code).1 = .ok (some t)) :
    ∃ before after, before ++ after = content ∧ t.key = range.keyAt (byteSize before) ∧
      (a.trace t).lineNumber + loneReturns before after =
        1 + (lineEnds 0 content).countP (· ≤ byteSize before) ∧
      ((a.trace t).lineNumber = 1 + (lineEnds 0 content).countP (· ≤ byteSize before) ↔
        ∀ first second, before = first ++ '\r' :: second → (second ++ after).head? = some '\n') := by
  have hleads := leads_stretchesOf codes (start content range retain)
  have hstart : (start content range retain).LiesIn content := ⟨[], rfl, rfl⟩
  obtain ⟨before, after, hsplit, hkey⟩ := exists_start_of_next (hleads.liesIn hstart).1 h
  rw [hleads.keys.1] at hkey
  have hkey : t.key = range.keyAt (byteSize before) := hkey
  have hle : byteSize before ≤ byteSize content := by
    rw [← hsplit, byteSize_append]
    exact Nat.le_add_right _ _
  obtain ⟨cut⟩ := Cut.nonempty content (byteSize before)
  have htrace : a.trace t = cut.place origin t.value.spelling := by
    rw [← Atlas.trace_of_holds ha hheld hle t.value cut, ← hkey]
  have hends := countP_lineEnds 0 before after
  rw [hsplit] at hends
  simp only [Nat.zero_add] at hends
  have hline : (a.trace t).lineNumber + loneReturns before after =
      1 + (lineEnds 0 content).countP (· ≤ byteSize before) := by
    rw [htrace, cut.lineNumber_place hsplit, hends]
    omega
  refine ⟨before, after, hsplit, hkey, hline, ?_⟩
  rw [← loneReturns_eq_zero_iff]
  omega

/-- A letter behind a carriage return stands in the second line, and is traced to the first one. -/
theorem lineNumber_trace_return :
    let content : List Char := ['a', '\r', 'b']
    let (range, a) := Atlas.register {} (.text "lex") content
    let t : Token := .char .letter 'b' (range.keyAt 2)
    ((afterCalls [CatCode.ofChar, CatCode.ofChar] (start content range false)).next
        CatCode.ofChar).1 = .ok (some t) ∧
      (a.trace t).lineNumber = 1 ∧ (lineEnds 0 content).countP (· ≤ 2) = 1 := by
  have hheld : (Atlas.register {} (.text "lex") ['a', '\r', 'b']).2.Holds (.text "lex")
      ['a', '\r', 'b'] (Atlas.register {} (.text "lex") ['a', '\r', 'b']).1 :=
    ⟨rfl, List.mem_singleton_self _⟩
  -- the calls give the first letter, the space that ends its line, and the second letter
  let keys : KeyRange := (Atlas.register {} (.text "lex") ['a', '\r', 'b']).1
  have hfirst : (start ['a', '\r', 'b'] keys false).next CatCode.ofChar =
      (.ok (some (.char .letter 'a' (some 0))),
        { rest := ['\r', 'b'], offset := 1, size := 3, keys, state := .midLine }) :=
    next_of_token rfl rfl
  have hsecond :
      Lexer.next { rest := ['\r', 'b'], offset := 1, size := 3, keys, state := .midLine } CatCode.ofChar =
        (.ok (some (.char .space ' ' (some 1))),
          { rest := ['b'], offset := 2, size := 3, keys, state := .newLine }) :=
    next_of_token rfl rfl
  have hthird :
      Lexer.next { rest := ['b'], offset := 2, size := 3, keys, state := .newLine } CatCode.ofChar =
        (.ok (some (.char .letter 'b' (some 2))),
          { rest := [], offset := 3, size := 3, keys, state := .midLine }) :=
    next_of_token rfl rfl
  have ht : ((afterCalls [CatCode.ofChar, CatCode.ofChar] (start ['a', '\r', 'b'] keys false)).next
      CatCode.ofChar).1 = .ok (some (.char .letter 'b' (some 2))) := by
    unfold afterCalls afterCalls afterCalls
    rw [hfirst, hsecond, hthird]
  obtain ⟨before, after, hsplit, hkey, hline, -⟩ :=
    lineNumber_trace (Atlas.sound_register _ Atlas.sound_empty (by decide)) hheld false _ ht
  -- the key says that two bytes stand before the letter
  have hsize : byteSize before = 2 := by
    unfold KeyRange.keyAt at hkey
    split at hkey
    · exact (Nat.zero_add _).symm.trans (Option.some.inj hkey).symm
    · cases hkey
  have hlone : loneReturns before after = 1 := by
    have hcut : splitAtByte 2 (before ++ after) = (before, after) :=
      splitAtByte_append_of_le (Nat.le_of_eq hsize) fun c _ => by
        have hc := c.utf8Size_pos
        omega
    rw [hsplit] at hcut
    obtain ⟨rfl, rfl⟩ := Prod.mk.inj hcut
    decide
  have htraced : ((Atlas.register {} (.text "lex") ['a', '\r', 'b']).2.trace
      (.char .letter 'b' (some 2))).lineNumber = 1 := by decide
  refine ⟨ht, htraced, ?_⟩
  rw [htraced, hlone, hsize] at hline
  exact (Nat.add_left_cancel hline).symm

end Lexer

end Gullet
