import Gullet.Proofs.Session.Ending
import Gullet.Proofs.Stream.Supplying

/-!
# Documents that are cancelled while text is written

A listener may give the signal that ends the run whenever something is given out, but the signal is looked
at only where a token is read. Text is written for characters, and the write is all that is done for one;
what comes next is that the main loop reads. So a document that is cancelled in a write stops right after
it: it closes the groups that are open, ends, and gives out nothing else.
-/

namespace Gullet

/-- Whether text is written by an event. -/
def Event.isWrite : Event → Bool
  | .write _ _ => true
  | _ => false

namespace Machine

variable {m m' m'' : Machine}

/-- The number of times that text has been written. -/
def writes (m : Machine) : Nat := m.output.events.countP Event.isWrite

/-- Between the two machines no text has been written, and the signal has not been touched. -/
def Silent (m m' : Machine) : Prop := m'.cancellation = m.cancellation ∧ m'.writes = m.writes

namespace Silent

theorem refl (m : Machine) : m.Silent m := ⟨rfl, rfl⟩

theorem trans (h : m.Silent m') (h' : m'.Silent m'') : m.Silent m'' :=
  ⟨h'.1.trans h.1, h'.2.trans h.2⟩

theorem emit (m : Machine) {e : Event} (he : e.IsSilent) : m.Silent (m.emit e) := by
  cases e with
  | write text settings => exact absurd rfl (he text settings)
  | _ => exact ⟨rfl, rfl⟩

theorem writes_le (h : m.Silent m') (n : Nat) : m'.writes ≤ m.writes + n := by
  rw [h.2]
  exact Nat.le_add_right _ n

/-- An act that gives out no event. -/
theorem of_eq (hc : m'.cancellation = m.cancellation)
    (he : m'.output.events = m.output.events) : m.Silent m' :=
  ⟨hc, congrArg (List.countP Event.isWrite) he⟩

instance : Unfolding Silent where
  refl := .refl
  trans _ _ _ := .trans
  read _ := .of_eq rfl rfl
  skip m _ := .emit m (by simp [Event.IsSilent])
  push _ _ := .of_eq rfl rfl
  announce m _ := .emit m (by simp [Event.IsSilent])
  put _ _ h := .of_eq rfl h
  name _ _ _ := .of_eq rfl rfl
  openBranch _ _ := .of_eq rfl rfl
  closeBranch _ := .of_eq rfl rfl
  count _ := .of_eq rfl rfl
  openSource _ _ _ := .of_eq rfl rfl
  endInput _ := .of_eq rfl rfl
  region _ h := h
  deeper h := h
  shielding h := h

end Silent

/-- What has been written stays written. -/
theorem Evolves.writes_le (h : m.Evolves m') : m.writes ≤ m'.writes := by
  obtain ⟨events, he, -⟩ := h.reports
  unfold writes
  rw [he, List.countP_append]
  exact Nat.le_add_left _ _

theorem writes_emit_write (m : Machine) (text : String) (settings : Settings) :
    (m.emit (.write text settings)).writes = m.writes + 1 := List.countP_cons_of_pos rfl

/-- The signal is given in the write after which none is to follow, and in no write before. -/
theorem cancellation_emit_write {n : Nat} (h : m.cancellation.afterWrites = some (n + 1))
    (text : String) (settings : Settings) :
    (n = 0 → (m.emit (.write text settings)).cancellation.raised = true) ∧
      (m.emit (.write text settings)).cancellation.afterWrites = some n := by
  have hcount : (m.emit (.write text settings)).cancellation =
      { raised := m.cancellation.raised || n + 1 ≤ 1, afterWrites := some n } := by
    show m.cancellation.countWrite = _
    unfold Cancellation.countWrite
    rw [h]
    rfl
  rw [hcount]
  refine ⟨fun hn => ?_, rfl⟩
  subst hn
  exact Bool.or_true _

end Machine

namespace Run

open Machine

theorem silent_endGroup (kind : GroupKind) (closer : Token) :
    (endGroup kind closer).Keeps Silent := by
  intro m
  rcases endGroup_eval kind closer m with ⟨⟨f, hf⟩, -⟩ | ⟨g, outer, -, -, h⟩
  · rw [hf]
    exact .refl m
  · rw [h]
    exact .trans (.of_eq rfl rfl) (.emit (m.change _) (by simp [Event.IsSilent]))

instance : Enacting (Keeping Silent) where
  emit _ hs := keeps_modify fun m => .emit m hs
  put _ hf := keeps_modify fun _ => .of_eq rfl (hf _)
  change _ _ := keeps_modify fun _ => .of_eq rfl rfl
  bindToken _ _ _ := keeps_get.bind fun _ => keeps_modify fun _ => .of_eq rfl rfl
  beginGroup _ _ := fun m => .trans (.of_eq rfl rfl) (.emit (m.change _) (by simp [Event.IsSilent]))
  endGroup := silent_endGroup
  spend _ _ := keeps_modify fun _ => .of_eq rfl rfl
  handle _ := keeps_modify fun _ => .of_eq rfl rfl
  verbatim t := fun m => (respects_verbatim (P := Keeping Silent) t) (m.change .verbatim)

instance : Assigning (Keeping Silent) where
  write _ _ := keeps_modify fun _ => .of_eq rfl rfl

theorem silent_modifier (kind : PrefixKind) (t : Token) :
    (Assignment.modifier kind t).Keeps Silent :=
  respects_prefixModifier (P := Keeping Silent) kind t fun _ => keeps_modify fun _ => .of_eq rfl rfl

/-! ### What is written for a token -/

/-- The action writes no text; or it writes one, and that is all it does. -/
def WritesAtMostOnce (a : Run Unit) : Prop :=
  ∀ m, m.Silent (a m).2 ∨ ∃ text settings, a m = (.ok (), m.emit (.write text settings))

theorem Keeps.writesAtMostOnce {a : Run Unit} (h : a.Keeps Silent) : a.WritesAtMostOnce :=
  fun m => .inl (h m)

/-- What is done may depend on the machine. -/
theorem writesAtMostOnce_get {a : Machine → Run Unit} (h : ∀ m, (a m).WritesAtMostOnce) :
    (get >>= a).WritesAtMostOnce := fun m => h m m

theorem writesAtMostOnce_writeChar (c : Char) : (Typesetting.writeChar c).WritesAtMostOnce :=
  fun m => .inr ⟨c.toString, m.scopes.currentSettings, rfl⟩

theorem writesAtMostOnce_typeset (t : Token) (category : CharCategory) (c : Char) :
    (Typesetting.typeset t category c).WritesAtMostOnce := by
  unfold Typesetting.typeset
  cases category with
  | superscript =>
    refine Keeps.writesAtMostOnce (respects_script (P := Keeping Silent) t ?_ ?_)
    · simp [Event.IsPlain]
    · simp [Event.IsSilent]
  | subscript =>
    refine Keeps.writesAtMostOnce (respects_script (P := Keeping Silent) t ?_ ?_)
    · simp [Event.IsPlain]
    · simp [Event.IsSilent]
  | alignmentTab => exact Keeps.writesAtMostOnce fun m => .emit m (by simp [Event.IsSilent])
  | parameter => exact Keeps.writesAtMostOnce (respects_recoverable (P := Keeping Silent) _)
  | space =>
    refine writesAtMostOnce_get fun m => ?_
    split
    · exact Keeps.writesAtMostOnce (keeps_pure ())
    · exact writesAtMostOnce_writeChar ' '
  | _ => exact writesAtMostOnce_writeChar c

theorem writesAtMostOnce_character (t : Token) (category : CharCategory) (c : Char) :
    (Execution.character t category c).WritesAtMostOnce := by
  refine writesAtMostOnce_get fun m => ?_
  split
  · exact Keeps.writesAtMostOnce (keeps_pure ())
  · exact writesAtMostOnce_typeset t category c
  · exact Keeps.writesAtMostOnce (respects_collect (P := Keeping Silent) t)

theorem writesAtMostOnce_processChar (t : Token) (category : CharCategory) (c : Char) :
    (Execution.processChar t category c).WritesAtMostOnce := by
  unfold Execution.processChar
  cases category with
  | beginGroup => exact Keeps.writesAtMostOnce (respects_beginGroup (P := Keeping Silent) _ t)
  | endGroup => exact Keeps.writesAtMostOnce (silent_endGroup _ t)
  | mathShift => exact Keeps.writesAtMostOnce (respects_mathShift (P := Keeping Silent) t)
  | _ => exact writesAtMostOnce_character t _ c

/-- **For a token at most one text is written, and if one is, nothing else is done.** -/
theorem writesAtMostOnce_process (t : Token) : (Execution.process t).WritesAtMostOnce := by
  obtain ⟨value, key⟩ := t
  cases value with
  | char category c => exact writesAtMostOnce_processChar _ category c
  | command ref =>
    intro m
    have hlookup : Execution.process ⟨.command ref, key⟩ m = _ := bind_of_ok (lookup_eval ref m)
    rw [hlookup]
    cases m.lookup ref with
    | execution p =>
      have hprimitive : (Execution.primitive ⟨.command ref, key⟩ p).Keeps Silent :=
        respects_executionPrimitive (P := Keeping Silent) fun kind _ => silent_modifier kind _
      exact .inl (hprimitive.during _ _ m)
    | quantity v => exact .inl (respects_ofVariable (P := Keeping Silent) _ v m)
    | character category c => exact writesAtMostOnce_processChar _ category c m
    | expansion p => exact .inl (respects_unexpanded (P := Keeping Silent) _ m)
    | custom mac => exact .inl (respects_unexpanded (P := Keeping Silent) _ m)
    | undefined => exact .inl (respects_undefined (P := Keeping Silent) _ ref m)

end Run

namespace Session

open Machine

variable {n : Nat} {m : Machine}

/-! ### The write in which the signal is given -/

/-- The run has written `n` texts and then one more, and that is the last thing it has done, since then it
found itself cancelled. -/
def StopsAfterWrite (n : Nat) (m : Machine) (outcome : Except Halt Unit × Machine) : Prop :=
  ∃ before text settings, m.Evolves before ∧ before.writes = m.writes + n ∧
    outcome = (.error (.failed (.ofFault before.atlas .cancelled)),
      before.emit (.write text settings))

theorem StopsAfterWrite.of_evolves {m' : Machine} {n' : Nat} {outcome : Except Halt Unit × Machine}
    (h : StopsAfterWrite n' m' outcome) (he : m.Evolves m') (hn : m'.writes + n' = m.writes + n) :
    StopsAfterWrite n m outcome := by
  obtain ⟨before, text, settings, hbefore, hwrites, houtcome⟩ := h
  exact ⟨before, text, settings, he.trans hbefore, hwrites.trans hn, houtcome⟩

/-- When the signal has been given the main loop does nothing. -/
theorem mainLoop_of_raised (h : m.cancellation.raised = true) (steps : Nat) :
    mainLoop steps m = (.error (.failed (.ofFault m.atlas .cancelled)), m) := by
  have hmain : Stream.main m = (.error (.failed (.ofFault m.atlas .cancelled)), m) :=
    Run.expanded_of_raised expand h
  cases steps with
  | zero => rw [mainLoop, hmain]
  | succ steps => rw [mainLoop, hmain]

/-- Reading the next token of the main loop writes nothing. -/
theorem main_reads {r : Except Halt (Option Token)} {read : Machine}
    (h : Stream.main m = (r, read)) : m.Silent read ∧ m.Evolves read := by
  have hsilent := Run.keeps_main (R := Silent) m
  have hevolves := Run.keeps_main (R := Evolves) m
  rw [h] at hsilent hevolves
  exact ⟨hsilent, hevolves⟩

/-- In a round of the main loop nothing is written, or one text, and that last. -/
theorem writes_round {t : Token} {read m' : Machine} {r : Except Halt Unit}
    (hmain : Stream.main m = (.ok (some t), read)) (hprocess : Execution.process t read = (r, m')) :
    m.Evolves m' ∧ (m.Silent m' ∨ ∃ text settings, m.Evolves read ∧ m.Silent read ∧
      r = .ok () ∧ m' = read.emit (.write text settings)) := by
  obtain ⟨hsilent, hevolves⟩ := main_reads hmain
  have hround : read.Evolves (Execution.process t read).2 :=
    Run.respects_process (P := Run.Keeping Evolves) (fun kind => Run.evolves_modifier kind t) read
  have hwrites := Run.writesAtMostOnce_process t read
  rw [hprocess] at hround hwrites
  refine ⟨hevolves.trans hround, hwrites.imp hsilent.trans ?_⟩
  rintro ⟨text, settings, hwrite⟩
  obtain ⟨rfl, rfl⟩ := Prod.mk.inj hwrite
  exact ⟨text, settings, hevolves, hsilent, rfl, rfl⟩

/-- **Where the signal is to be given in a write, the main loop stops right after this write, unless it
ends before.** -/
theorem mainLoop_cancelled (steps : Nat) (hsignal : m.cancellation.afterWrites = some (n + 1)) :
    (mainLoop steps m).2.writes ≤ m.writes + n ∨ StopsAfterWrite n m (mainLoop steps m) := by
  induction steps generalizing n m with
  | zero =>
    rw [mainLoop]
    rcases hmain : Stream.main m with ⟨halt | _ | t, read⟩
    · exact .inl ((main_reads hmain).1.writes_le n)
    · exact .inl ((main_reads hmain).1.writes_le n)
    · exact .inl ((main_reads hmain).1.writes_le n)
  | succ steps ih =>
    rw [mainLoop]
    rcases hmain : Stream.main m with ⟨halt | _ | t, read⟩
    · exact .inl ((main_reads hmain).1.writes_le n)
    · exact .inl ((main_reads hmain).1.writes_le n)
    dsimp only
    rcases hprocess : Execution.process t read with ⟨r, m'⟩
    obtain ⟨hevolves, hsilent | ⟨text, settings, heread, hread, rfl, rfl⟩⟩ := writes_round hmain hprocess
    · cases r with
      | error halt => exact .inl (hsilent.writes_le n)
      | ok _ =>
        dsimp only
        rw [← hsilent.2]
        refine (ih (hsilent.1 ▸ hsignal)).imp_right fun hstops => ?_
        exact hstops.of_evolves hevolves (by rw [hsilent.2])
    · dsimp only
      obtain ⟨hraised, hafter⟩ := cancellation_emit_write (hread.1 ▸ hsignal) text settings
      cases n with
      | zero =>
        -- this was the write, and the loop does not get beyond it
        rw [mainLoop_of_raised (hraised rfl)]
        exact .inr ⟨read, text, settings, heread, hread.2, rfl⟩
      | succ n =>
        have hwritten : (read.emit (.write text settings)).writes = m.writes + 1 := by
          rw [writes_emit_write, hread.2]
        rcases ih hafter with hfew | hstops
        · exact .inl (by omega)
        · exact .inr (hstops.of_evolves hevolves (by omega))

/-! ### The whole document -/

/-- The machine with which the main loop begins to read a document. -/
def opened (handlers : Handlers) (origin : Origin) (content : String) (m : Machine) : Machine :=
  { (Run.openSource origin content (m.emit (.beginParse origin))).2 with handlers }

theorem evolves_opened (handlers : Handlers) (origin : Origin) (content : String) (m : Machine) :
    m.Evolves (opened handlers origin content m) := by
  have hbegin : m.Evolves (m.emit (.beginParse origin)) := .emit m (by simp [Event.IsPlain])
  exact (hbegin.trans (.openSource _ origin content)).trans (.handle _ handlers)

theorem silent_opened (handlers : Handlers) (origin : Origin) (content : String) (m : Machine) :
    m.Silent (opened handlers origin content m) :=
  .trans (.emit m (e := .beginParse origin) (by simp [Event.IsSilent])) (.of_eq rfl rfl)

theorem document_eval (handlers : Handlers) (origin : Origin) (content : String) (m : Machine) :
    document handlers origin content m =
      ((mainLoop (documentLimit content) : Run Unit) >>= fun _ => checkGroups)
        (opened handlers origin content m) := rfl

/-- When the main loop has ended, a document does nothing any more. -/
theorem document_snd (handlers : Handlers) (origin : Origin) (content : String) (m : Machine) :
    (document handlers origin content m).2 =
      (mainLoop (documentLimit content) (opened handlers origin content m)).2 := by
  rw [document_eval, Run.bind_eval]
  rcases mainLoop (documentLimit content) (opened handlers origin content m) with ⟨halt | _, m'⟩
  · rfl
  · show (checkGroups m').2 = m'
    unfold checkGroups
    rw [Run.get_bind_eval]
    cases m'.scopes.groups <;> rfl

theorem document_cancelled (handlers : Handlers) (origin : Origin) (content : String)
    (hsignal : m.cancellation.afterWrites = some (n + 1)) :
    (document handlers origin content m).2.writes ≤ m.writes + n ∨
      StopsAfterWrite n m (document handlers origin content m) := by
  obtain ⟨hcancellation, hwrites⟩ := silent_opened handlers origin content m
  have hopened : (opened handlers origin content m).cancellation.afterWrites = some (n + 1) :=
    hcancellation ▸ hsignal
  rcases mainLoop_cancelled (documentLimit content) hopened with hfew | hstops
  · left
    rw [document_snd, ← hwrites]
    exact hfew
  · right
    obtain ⟨before, text, settings, hbefore, hcount, hloop⟩ :=
      hstops.of_evolves (evolves_opened handlers origin content m) (by rw [hwrites])
    rw [document_eval, Run.bind_of_error hloop]
    exact ⟨before, text, settings, hbefore, hcount, rfl⟩

/-! ### The end of the document -/

/-- Closing groups gives out that they are closed, innermost first. -/
theorem events_closeGroups (groups : List Group) (m : Machine) :
    (closeGroups groups m).output.events =
      (groups.map Event.endGroup).reverse ++ m.output.events := by
  induction groups generalizing m with
  | nil => rfl
  | cons g outer ih =>
    have hrest := ih ((m.change (.closed g)).emit (.endGroup g))
    rw [closeGroups, hrest, List.map_cons, List.reverse_cons, List.append_assoc]
    rfl

theorem events_unwind (m : Machine) :
    (unwind m).output.events = (m.scopes.groups.map Event.endGroup).reverse ++ m.output.events :=
  events_closeGroups m.scopes.groups { m with input := {} }

theorem countP_endGroups (groups : List Group) :
    (groups.map Event.endGroup).countP Event.isWrite = 0 := by
  rw [List.countP_map]
  exact List.countP_eq_zero.2 fun g _ => Bool.false_ne_true

theorem writes_parse (handlers : Handlers) (origin : Origin) (content : String) (m : Machine) :
    (parse handlers origin content m).2.writes =
      (document handlers origin content { m with handlers, expansions := 0, history := [] }).2.writes := by
  show (Event.endParse :: (unwind _).output.events).countP Event.isWrite = _
  rw [events_unwind, List.countP_cons_of_neg (by decide), List.countP_append, List.countP_reverse,
    countP_endGroups, Nat.zero_add]
  rfl

/-- **A document that is cancelled while text is written stops at once.**

If the signal is to be given in the `n + 1`st write and a document writes that often, then its reading fails
because it was cancelled. The write is the last thing that is given out but for the ends of the groups that
were open then, innermost first, and the end of the document. -/
theorem parse_cancelled (hsignal : m.cancellation.afterWrites = some (n + 1)) (origin : Origin)
    (content : String) (hwrites : m.writes + n < (parse .writing origin content m).2.writes) :
    ∃ d text settings earlier,
      (parse .writing origin content m).1 = .error (.failed d) ∧ d.kind = .cancelled ∧
        earlier.countP Event.isWrite = n ∧
        (parse .writing origin content m).2.output.events =
          .endParse :: (((Event.openGroups m.scopes.groups earlier).map Event.endGroup).reverse ++
            .write text settings :: (earlier ++ m.output.events)) := by
  let begun : Machine := { m with handlers := .writing, expansions := 0, history := [] }
  rw [writes_parse] at hwrites
  rcases document_cancelled .writing origin content (m := begun) hsignal with hfew | hstops
  · exact absurd hfew (Nat.not_le.2 hwrites)
  obtain ⟨before, text, settings, hbefore, hcount, hdocument⟩ := hstops
  obtain ⟨earlier, hearlier, hgroups⟩ := hbefore.reports
  have hparse : parse .writing origin content m =
      (.error (.failed (.ofFault before.atlas .cancelled)),
        (unwind (before.emit (.write text settings))).emit .endParse) := by
    unfold parse
    rw [show document .writing origin content begun = _ from hdocument]
  refine ⟨.ofFault before.atlas .cancelled, text, settings, earlier, ?_, rfl, ?_, ?_⟩
  · rw [hparse]
  · have hbegun : begun.writes = m.output.events.countP Event.isWrite := rfl
    unfold Machine.writes at hcount
    rw [hearlier, List.countP_append] at hcount
    omega
  · have hopen : before.scopes.groups = Event.openGroups m.scopes.groups earlier := hgroups
    rw [hparse, ← hopen]
    show Event.endParse :: (unwind (before.emit (.write text settings))).output.events = _
    rw [events_unwind]
    show Event.endParse :: (_ ++ .write text settings :: before.output.events) = _
    rw [hearlier]
    rfl

/-- The standard machine, with the signal to be given in the first write. -/
def impatient : Machine := { Machine.standard with cancellation := { afterWrites := some 1 } }

/-- In the document `{x` a text is written, inside a group. -/
theorem writes_impatient :
    impatient.writes + 0 < (parse .writing (.text "group") "\x7bx" impatient).2.writes := by
  let begun : Machine := { impatient with handlers := .writing, expansions := 0, history := [] }
  let start : Machine := opened .writing (.text "group") "\x7bx" begun
  let keys : KeyRange := (Atlas.register {} (.text "group") ['\x7b', 'x']).1
  let lexer (rest : List Char) (offset : Nat) : Lexer :=
    { rest, offset, size := 2, keys, state := .midLine, retain := false }
  let brace : Token := .char .beginGroup '\x7b' (keys.keyAt 0)
  let letter : Token := .char .letter 'x' (keys.keyAt 1)
  -- the brace opens a group, in which the letter is written
  let read : Machine :=
    { start with input := ⟨[{ kind := .file (lexer ['x'] 1) }, { kind := .bottom }]⟩ }
  let g : Group := { kind := .brace, opener := brace }
  let inside : Machine := (read.change (.opened g)).emit (.beginGroup g)
  have hbrace : (Lexer.start ['\x7b', 'x'] keys false).next start.codeOf =
      (.ok (some brace), lexer ['x'] 1) := Lexer.next_of_token (r := ⟨'\x7b', ['x'], 1⟩) rfl rfl
  have hletter : (lexer ['x'] 1).next inside.codeOf = (.ok (some letter), lexer [] 2) :=
    Lexer.next_of_token (r := ⟨'x', [], 1⟩) rfl rfl
  have hopens : Round start inside :=
    ⟨brace, read, Run.loop_of_answer (Run.bind_of_ok (Run.raw_of_next rfl rfl rfl hbrace)), rfl⟩
  obtain ⟨written, hwrites, hcount⟩ : ∃ written, Round inside written ∧ written.writes = 1 :=
    ⟨_, ⟨letter, _, Run.loop_of_answer (Run.bind_of_ok (Run.raw_of_next rfl rfl rfl hletter)), rfl⟩,
      rfl⟩
  have hlimit : documentLimit "\x7bx" = stepLimit + 1 + 1 := by
    unfold documentLimit
    rfl
  have hloop : mainLoop (documentLimit "\x7bx") start = mainLoop stepLimit written := by
    rw [hlimit]
    exact (mainLoop_of_round hopens (stepLimit + 1)).trans (mainLoop_of_round hwrites stepLimit)
  have hlater : written.Evolves (mainLoop stepLimit written).2 :=
    Run.respects_mainLoop (P := Run.Keeping Evolves) Run.evolves_modifier stepLimit written
  rw [writes_parse, document_snd]
  show 0 < (mainLoop (documentLimit "\x7bx") start).2.writes
  rw [hloop]
  exact Nat.lt_of_lt_of_le (hcount ▸ Nat.zero_lt_one) hlater.writes_le

/-- The standard machine, cancelled in the group of the document `{x`. -/
theorem impatient_cancelled :
    ∃ d text settings earlier,
      (parse .writing (.text "group") "\x7bx" impatient).1 = .error (.failed d) ∧
        d.kind = .cancelled ∧ earlier.countP Event.isWrite = 0 ∧
        (parse .writing (.text "group") "\x7bx" impatient).2.output.events =
          .endParse :: (((Event.openGroups [] earlier).map Event.endGroup).reverse ++
            .write text settings :: (earlier ++ [])) :=
  parse_cancelled rfl (.text "group") "\x7bx" writes_impatient

end Session

end Gullet
