import Mathlib.Logic.Relation
import Gullet.Proofs.Run.Rereading
import Gullet.Proofs.Session.Ending
import Gullet.Proofs.Stream.Supplying
import Gullet.Proofs.Unfolding.Execution

/-!
# Prefixes in the main loop

A prefix command reads the command that it is meant for, checks that it takes the prefixes, and puts it
back; the next round of the main loop processes that command, which uses all of them up. So no prefix
waits for longer than one round, and no other command finds one waiting.

Which commands take prefixes is written down in one place and how they use them up in others. The two
agree: whatever takes a prefix uses it up before it does anything that could fail.
-/

namespace Gullet

/-- The machine with other prefixes waiting. -/
def Machine.holding (m : Machine) (prefixes : Prefixes) : Machine := { m with prefixes }

/-! ### What keeps prefixes from waiting -/

/-- If no prefix waits on the first machine, none waits on the second. -/
def Machine.StaysFree (m m' : Machine) : Prop := m.prefixes = {} → m'.prefixes = {}

namespace Machine.StaysFree

/-- An act that leaves prefixes alone. -/
theorem of_eq {m m' : Machine} (h : m'.prefixes = m.prefixes) : m.StaysFree m' := fun hm => h.trans hm

instance : Unfolding StaysFree where
  refl _ := id
  trans _ _ _ h h' := h' ∘ h
  read _ := .of_eq rfl
  skip _ _ := .of_eq rfl
  push _ _ := .of_eq rfl
  announce _ _ := .of_eq rfl
  put _ _ _ := .of_eq rfl
  name _ _ _ := .of_eq rfl
  openBranch _ _ := .of_eq rfl
  closeBranch _ := .of_eq rfl
  count _ := .of_eq rfl
  openSource _ _ _ := .of_eq rfl
  endInput _ := .of_eq rfl
  region _ h := h
  deeper h := h
  shielding h := h

end Machine.StaysFree

namespace Run

open Machine

theorem staysFree_endGroup (kind : GroupKind) (closer : Token) :
    (endGroup kind closer).Keeps StaysFree := by
  intro m
  rcases endGroup_eval kind closer m with ⟨⟨f, hf⟩, -⟩ | ⟨g, outer, -, -, h⟩
  · rw [hf]
    exact id
  · rw [h]
    exact .of_eq rfl

instance : Enacting (Keeping StaysFree) where
  emit _ _ := keeps_modify fun _ => .of_eq rfl
  put _ _ := keeps_modify fun _ => .of_eq rfl
  change _ _ := keeps_modify fun _ => .of_eq rfl
  bindToken _ _ _ := keeps_get.bind fun _ => keeps_modify fun _ => .of_eq rfl
  beginGroup _ _ := fun _ => .of_eq rfl
  endGroup := staysFree_endGroup
  spend rest hrest := keeps_modify fun _ hm => (congrArg rest hm).trans hrest
  handle _ := keeps_modify fun _ => .of_eq rfl
  verbatim t := fun m => (respects_verbatim (P := Keeping StaysFree) t) (m.change .verbatim)

instance : Assigning (Keeping StaysFree) where
  write _ _ := keeps_modify fun _ => .of_eq rfl

instance : Writing (Keeping StaysFree) where
  write _ _ := keeps_modify fun _ => .of_eq rfl

/-- To process a token keeps prefixes from waiting, unless it runs a prefix command. -/
theorem staysFree_process {m : Machine} {t : Token}
    (ht : ∀ ref kind, t.value = .command ref → m.lookup ref ≠ .execution (.modifier kind)) :
    m.StaysFree (Execution.process t m).2 := by
  obtain ⟨value, key⟩ := t
  cases value with
  | char category c => exact respects_processChar (P := Keeping StaysFree) _ category c m
  | command ref =>
    have hlookup : Execution.process ⟨.command ref, key⟩ m = _ := bind_of_ok (lookup_eval ref m)
    rw [hlookup]
    cases hcommand : m.lookup ref with
    | execution p =>
      have hprimitive : (Execution.primitive ⟨.command ref, key⟩ p).Respects (Keeping StaysFree) :=
        respects_executionPrimitive fun kind hp => absurd (hp ▸ hcommand) (ht ref kind rfl)
      exact hprimitive.during _ _ m
    | quantity v => exact respects_ofVariable (P := Keeping StaysFree) _ v m
    | character category c => exact respects_processChar (P := Keeping StaysFree) _ category c m
    | expansion p => exact respects_unexpanded (P := Keeping StaysFree) _ m
    | custom mac => exact respects_unexpanded (P := Keeping StaysFree) _ m
    | undefined => exact respects_undefined (P := Keeping StaysFree) _ ref m

/-- If an action uses up the prefixes that wait, none of them waits any more, however it ends. -/
theorem UsesUp.prefixes_eq {α : Type} {a : Run α} {rest : Prefixes → Prefixes} {m : Machine}
    (h : a.UsesUp (Keeping StaysFree) rest) (hm : rest m.prefixes = {}) : (a m).2.prefixes = {} := by
  obtain ⟨after, -, hafter, rfl⟩ := h
  exact hafter m { m with prefixes := rest m.prefixes } hm

end Run

/-! ### Which prefixes a command takes -/

/-- Which prefixes a command takes: whether it takes the one for the scope, and whether it takes all. -/
def Command.takes : Command → Bool × Bool
  | .quantity _ => (true, false)
  | command =>
    match command.tag? with
    | some tag => (tag.acceptsGlobal, tag.acceptsAnyPrefix)
    | none => (false, false)

namespace Assignment.PrefixTokens

/-- The prefixes that wait when these have been read. -/
def waiting (p : PrefixTokens) : Prefixes where
  everywhere := p.everywhere.isSome
  long := p.long.isSome
  shielded := p.shielded.isSome

variable {p : PrefixTokens}

theorem waiting_of_refused_none (h : p.refused false false = none) : p.waiting = {} := by
  obtain ⟨everywhere, long, shielded⟩ := p
  cases everywhere <;> cases long <;> cases shielded <;> first | rfl | cases h

theorem unscoped_waiting_of_refused_none (h : p.refused true false = none) :
    Run.unscoped p.waiting = {} := by
  obtain ⟨everywhere, long, shielded⟩ := p
  cases long <;> cases shielded <;> first | rfl | cases h

end Assignment.PrefixTokens

namespace Machine

open Assignment (PrefixTokens)

/-- The token stands for a prefix command of the kind. -/
def IsPrefix (m : Machine) (t : Token) (kind : PrefixKind) : Prop :=
  ∃ ref, t.value = .command ref ∧ m.lookup ref = .execution (.modifier kind)

/-- The token stands for a command that takes the prefixes. -/
def Takes (m : Machine) (p : PrefixTokens) (t : Token) : Prop :=
  ∃ ref, t.value = .command ref ∧ p.refused (m.lookup ref).takes.1 (m.lookup ref).takes.2 = none

end Machine

namespace Run

open Machine Assignment

variable {p : PrefixTokens} {m : Machine} {t : Token}

/-- A primitive that takes prefixes uses them up. -/
theorem exists_usesUp {e : ExecutionPrimitive} (hwaiting : p.waiting ≠ {})
    (htakes : p.refused (Command.execution e).takes.1 (Command.execution e).takes.2 = none) :
    ∃ rest, rest p.waiting = {} ∧ (Execution.primitive t e).UsesUp (Keeping StaysFree) rest := by
  cases e with
  | define everywhere expanded => exact ⟨_, rfl, usesUp_define everywhere expanded⟩
  | arithmetic op =>
    exact ⟨_, PrefixTokens.unscoped_waiting_of_refused_none htakes, usesUp_arithmetic op t⟩
  | letMeaning =>
    exact ⟨_, PrefixTokens.unscoped_waiting_of_refused_none htakes, usesUp_letMeaning⟩
  | newIf => exact ⟨_, PrefixTokens.unscoped_waiting_of_refused_none htakes, usesUp_newSwitch t⟩
  | nameRegister kind =>
    exact ⟨_, PrefixTokens.unscoped_waiting_of_refused_none htakes, usesUp_nameRegister kind⟩
  | _ => exact absurd (PrefixTokens.waiting_of_refused_none htakes) hwaiting

/-- A command that takes the prefixes that wait uses them up, even if it fails. -/
theorem prefixes_process_of_takes (htakes : m.Takes p t) (hm : m.prefixes = p.waiting)
    (hwaiting : p.waiting ≠ {}) : (Execution.process t m).2.prefixes = {} := by
  obtain ⟨ref, hv, hrefused⟩ := htakes
  cases hcommand : m.lookup ref with
  | execution e =>
    rw [hcommand] at hrefused
    obtain ⟨rest, hrest, huses⟩ := exists_usesUp (t := t) hwaiting hrefused
    rw [process_execution_eval hv hcommand, during_snd]
    exact huses.prefixes_eq (by rw [hm, hrest])
  | quantity v =>
    rw [hcommand] at hrefused
    have hprocess : Execution.process t m = Assignment.ofVariable t v m := by
      unfold Execution.process
      rw [hv]
      dsimp only
      rw [bind_of_ok (lookup_eval ref m), hcommand]
    rw [hprocess]
    refine (usesUp_ofVariable t v).prefixes_eq ?_
    rw [hm]
    exact PrefixTokens.unscoped_waiting_of_refused_none hrefused
  | expansion e =>
    have hnone : (Command.expansion e).takes = (false, false) := by cases e <;> rfl
    rw [hcommand, hnone] at hrefused
    exact absurd (PrefixTokens.waiting_of_refused_none hrefused) hwaiting
  | _ =>
    rw [hcommand] at hrefused
    exact absurd (PrefixTokens.waiting_of_refused_none hrefused) hwaiting

/-- What a prefix command does with the command that it has read. -/
def setOff (p : PrefixTokens) (next : Token) (ref : CommandRef) (takes : Bool × Bool) : Run Unit := do
  match p.refused takes.1 takes.2 with
  | some offending => fail (.prefixRefused next ref.text offending.value.spelling)
  | none =>
    pushBack next
    modify fun m => { m with prefixes := p.waiting }

theorem modifier_eq (kind : PrefixKind) (t : Token) :
    Assignment.modifier kind t = (do
      let (p, next) ← prefixes (.add {} t kind)
      match next.value with
      | .char _ _ => fail (.prefixedCharacter next)
      | .command ref => setOff p next ref (← lookup ref).takes) := rfl

theorem setOff_eval {takes : Bool × Bool} (h : p.refused takes.1 takes.2 = none) (next : Token)
    (ref : CommandRef) (m : Machine) :
    setOff p next ref takes m = (.ok ⟨⟩, (m.push [next]).holding p.waiting) := by
  unfold setOff
  rw [h]
  dsimp only
  rw [bind_of_ok (pushBack_eval next m)]
  rfl

/-- A prefix command reads on up to a command that takes the prefixes, and puts that back; or it fails. -/
theorem modifier_eval (kind : PrefixKind) (t : Token) (m : Machine) :
    (∃ p next checked, prefixes (.add {} t kind) m = (.ok (p, next), checked) ∧
        checked.Takes p next ∧
        Assignment.modifier kind t m =
          (.ok ⟨⟩, (checked.push [next]).holding p.waiting)) ∨
      ∃ halt, Assignment.modifier kind t m = (.error halt, (prefixes (.add {} t kind) m).2) := by
  rw [modifier_eq, bind_eval]
  rcases prefixes (.add {} t kind) m with ⟨halt | ⟨p, next⟩, checked⟩
  · exact .inr ⟨halt, rfl⟩
  · obtain ⟨value, key⟩ := next
    cases value with
    | char category c => exact .inr ⟨_, rfl⟩
    | command ref =>
      dsimp only
      rw [bind_of_ok (lookup_eval ref checked)]
      cases hrefused : p.refused (checked.lookup ref).takes.1 (checked.lookup ref).takes.2 with
      | none => exact .inl ⟨p, _, checked, rfl, ⟨ref, rfl, hrefused⟩, setOff_eval hrefused _ ref checked⟩
      | some offending =>
        have hrefusal : setOff p ⟨.command ref, key⟩ ref (checked.lookup ref).takes checked =
            fail (.prefixRefused ⟨.command ref, key⟩ ref.text offending.value.spelling) checked := by
          unfold setOff
          rw [hrefused]
        exact .inr ⟨_, hrefusal⟩

end Run

namespace Session

open Machine Assignment

/-! ### Rounds with prefixes -/

/-- The round runs a prefix command: it reads prefixes up to the token, checks that this takes them all,
and puts it back, so that the prefixes wait for it. -/
def PrefixRound (m : Machine) (next : Token) (m' : Machine) : Prop :=
  ∃ t read kind p checked, Stream.main m = (.ok (some t), read) ∧ read.IsPrefix t kind ∧
    prefixes (.add {} t kind) read = (.ok (p, next), checked) ∧ checked.Takes p next ∧
    m' = (checked.push [next]).holding p.waiting

variable {m₀ m m' read : Machine} {t next : Token}

theorem going_of_main (h : Stream.main m = (.ok (some t), read)) : m.cancellation.raised = false := by
  by_contra hraised
  have hmain : Stream.main m = (.error _, m) :=
    Run.expanded_of_raised expand (Bool.eq_true_of_not_eq_false hraised)
  rw [hmain] at h
  cases h

/-- A command that takes prefixes is not expanded. -/
theorem leavesAlone_of_takes {p : PrefixTokens} (htakes : m.Takes p t) (hwaiting : p.waiting ≠ {}) :
    m.LeavesAlone t := by
  obtain ⟨ref, hv, hrefused⟩ := htakes
  intro ref' hv'
  obtain rfl : ref = ref' := by
    rw [hv] at hv'
    exact TokenValue.command.inj hv'
  cases hcommand : m.lookup ref with
  | expansion e =>
    have hnone : (Command.expansion e).takes = (false, false) := by cases e <;> rfl
    rw [hcommand, hnone] at hrefused
    exact absurd (PrefixTokens.waiting_of_refused_none hrefused) hwaiting
  | custom mac =>
    rw [hcommand] at hrefused
    exact absurd (PrefixTokens.waiting_of_refused_none hrefused) hwaiting
  | _ => rfl

/-- After a prefix command the next round reads the command that it put back, which takes the prefixes
that wait. -/
theorem PrefixRound.reads_next (h : PrefixRound m next m') (hwaiting : m'.prefixes ≠ {})
    (hmain : Stream.main m' = (.ok (some t), read)) :
    t = next ∧ ∃ p, read.Takes p t ∧ read.prefixes = p.waiting ∧ p.waiting ≠ {} := by
  obtain ⟨-, -, -, p, checked, -, -, -, htakes, hm'⟩ := h
  -- what is left when the command has been read again
  let left : Machine := (checked.push []).holding p.waiting
  have hpush : m' = left.push [next] := by
    rw [hm', ← List.append_nil [next], ← Run.push_push]
    rfl
  have hreadable : left.Readable := by
    have hgoing : m'.cancellation.raised = false := going_of_main hmain
    refine ⟨by rwa [hm'] at hgoing, ?_⟩
    rcases Input.sources_pushAll checked.input [] with ⟨-, h⟩ | ⟨s, below, -, h⟩
    · exact h ▸ List.cons_ne_nil _ _
    · exact h ▸ List.cons_ne_nil _ _
  have hp : p.waiting ≠ {} := by rwa [hm'] at hwaiting
  have hagain : Stream.main m' = (.ok (some next), left.push []) := by
    rw [hpush]
    exact Run.expanded_push hreadable (leavesAlone_of_takes (m := left) htakes hp) []
  rw [hagain] at hmain
  cases hmain
  exact ⟨rfl, p, htakes, rfl, hp⟩

/-- A round on a machine on which no prefix waits, and a round after a prefix command, leave no prefix
waiting, unless they run a prefix command themselves. -/
theorem prefixes_process (ht : ∀ kind, ¬ read.IsPrefix t kind)
    (h : read.prefixes = {} ∨ ∃ p, read.Takes p t ∧ read.prefixes = p.waiting ∧ p.waiting ≠ {}) :
    (Execution.process t read).2.prefixes = {} := by
  rcases h with hfree | ⟨p, htakes, hread, hwaiting⟩
  · exact Run.staysFree_process (fun ref kind hv hcommand => ht kind ⟨ref, hv, hcommand⟩) hfree
  · exact Run.prefixes_process_of_takes htakes hread hwaiting

theorem staysFree_main (hmain : Stream.main m = (.ok (some t), read)) : m.StaysFree read := by
  have hfree := Run.respects_main (P := Run.Keeping StaysFree) m
  rwa [hmain] at hfree

/-- A round that begins when no prefix waits, or after a prefix command, finds prefixes waiting only if
its command takes them. -/
theorem prefixes_main (h : m.prefixes = {} ∨ ∃ before next, PrefixRound before next m)
    (hmain : Stream.main m = (.ok (some t), read)) :
    read.prefixes = {} ∨ ∃ p, read.Takes p t ∧ read.prefixes = p.waiting ∧ p.waiting ≠ {} := by
  by_cases hwaiting : m.prefixes = {}
  · exact .inl (staysFree_main hmain hwaiting)
  · obtain hfree | ⟨before, next, hround⟩ := h
    · exact absurd hfree hwaiting
    · exact .inr (hround.reads_next hwaiting hmain).2

/-- After a round no prefix waits, or the round ran a prefix command. -/
theorem prefixes_round (h : m.prefixes = {} ∨ ∃ before next, PrefixRound before next m)
    (hround : Round m m') : m'.prefixes = {} ∨ ∃ next, PrefixRound m next m' := by
  obtain ⟨t, read, hmain, hprocess⟩ := hround
  by_cases ht : ∃ kind, read.IsPrefix t kind
  · obtain ⟨kind, ref, hv, hcommand⟩ := ht
    have hmodifier : Run.during .execution t (Assignment.modifier kind t) read = (.ok (), m') := by
      rw [← hprocess]
      exact (Run.process_execution_eval hv hcommand).symm
    have hok := Run.of_during_eq_ok hmodifier
    rcases Run.modifier_eval kind t read with ⟨p, next, checked, hprefixes, htakes, h⟩ | ⟨halt, h⟩
    · rw [h] at hok
      cases hok
      exact .inr ⟨next, t, read, kind, p, checked, hmain, ⟨ref, hv, hcommand⟩, hprefixes, htakes, rfl⟩
    · rw [h] at hok
      cases hok
  · left
    have hfree := prefixes_process (fun kind hkind => ht ⟨kind, hkind⟩) (prefixes_main h hmain)
    rwa [hprocess] at hfree

/-- In a run that begins when no prefix waits, one waits only between a prefix command and the next
round. -/
theorem prefixes_of_reachable (hstart : m₀.prefixes = {}) (hrun : Relation.ReflTransGen Round m₀ m) :
    m.prefixes = {} ∨
      ∃ before next, Relation.ReflTransGen Round m₀ before ∧ PrefixRound before next m := by
  induction hrun with
  | refl => exact .inl hstart
  | @tail m m' hrun hround ih =>
    have hbefore : m.prefixes = {} ∨ ∃ before next, PrefixRound before next m :=
      ih.imp_right fun ⟨before, next, _, hpending⟩ => ⟨before, next, hpending⟩
    exact (prefixes_round hbefore hround).imp_right fun ⟨next, hpending⟩ => ⟨m, next, hrun, hpending⟩

/-- **A prefix affects the next assignment only.** In a run of the main loop that begins when no prefix
waits, whenever a token is processed while one does, the token is the command that the round before
checked and put back, a round of a prefix command; and after any other command, whether it succeeded or
failed, no prefix waits. -/
theorem prefix_waits_for_next (hstart : m₀.prefixes = {})
    (hrun : Relation.ReflTransGen Round m₀ m) (hmain : Stream.main m = (.ok (some t), read)) :
    (read.prefixes ≠ {} →
        ∃ before, Relation.ReflTransGen Round m₀ before ∧ PrefixRound before t m) ∧
      ((∀ kind, ¬ read.IsPrefix t kind) → (Execution.process t read).2.prefixes = {}) := by
  have hreachable := prefixes_of_reachable hstart hrun
  constructor
  · intro hwaiting
    have hm : m.prefixes ≠ {} := mt (staysFree_main hmain) hwaiting
    obtain hfree | ⟨before, next, hbefore, hpending⟩ := hreachable
    · exact absurd hfree hm
    · obtain rfl := (hpending.reads_next hm hmain).1
      exact ⟨before, hbefore, hpending⟩
  · intro ht
    have hround : m.prefixes = {} ∨ ∃ before next, PrefixRound before next m :=
      hreachable.imp_right fun ⟨before, next, _, hpending⟩ => ⟨before, next, hpending⟩
    exact prefixes_process ht (prefixes_main hround hmain)

/-- The round of `\global` before `\let`, and what the next round reads. -/
theorem round_global_let (hm : m.Readable)
    (hglobal : m.lookup (.controlSequence "global") = .execution (.modifier .global))
    (hlet : m.lookup (.controlSequence "let") = .execution .letMeaning) (rest : List Token) :
    Round (m.push (.named "global" :: .named "let" :: rest))
        ((m.push (.named "let" :: rest)).holding { everywhere := true }) ∧
      Stream.main ((m.push (.named "let" :: rest)).holding { everywhere := true }) =
        (.ok (some (.named "let")), (m.push rest).holding { everywhere := true }) := by
  have halone {n : Machine} {name : String} {e : ExecutionPrimitive}
      (h : n.lookup (.controlSequence name) = .execution e) : n.LeavesAlone (.named name) := by
    intro ref hv
    cases hv
    rw [h]
    rfl
  have hsecond : Stream.main (m.push (.named "let" :: rest)) =
      (.ok (some (.named "let")), m.push rest) := Run.expanded_push hm (halone hlet) _
  have hprefixes : prefixes (.add {} (.named "global") .global) (m.push (.named "let" :: rest)) =
      (.ok (.add {} (.named "global") .global, .named "let"), m.push rest) := by
    have htag : (m.push rest).scopes.bindings.tagOf? (.named "let") = some .letMeaning :=
      congrArg Command.tag? hlet
    have hspace : (Token.named "let").value.isSpace = false := rfl
    refine Run.loop_of_answer ((Run.bind_of_ok (Run.nextOr_of_some hsecond _)).trans ?_)
    rw [hspace, if_neg Bool.false_ne_true, Run.get_bind_eval, htag]
    rfl
  constructor
  · refine ⟨.named "global", m.push (.named "let" :: rest), Run.expanded_push hm (halone hglobal) _, ?_⟩
    have hbound : (m.push (.named "let" :: rest)).lookup (.controlSequence "global") =
        .execution (.modifier .global) := hglobal
    refine (Run.process_execution_eval rfl hbound).trans (Run.during_of_ok _ _ ?_)
    show Assignment.modifier .global _ _ = _
    have hlookup : (m.push rest).lookup (.controlSequence "let") = .execution .letMeaning := hlet
    have hpush : (m.push rest).push [.named "let"] = m.push (.named "let" :: rest) := Run.push_push m _ _
    rw [Run.modifier_eq, Run.bind_of_ok hprefixes, ← hpush]
    dsimp only [Token.named]
    rw [Run.bind_of_ok (Run.lookup_eval _ _), hlookup]
    exact Run.setOff_eval rfl _ _ _
  · exact Run.expanded_push (m := m.holding { everywhere := true }) ⟨hm.going, hm.sources⟩ (halone hlet) _

/-- In `\global\let\a b` the prefix waits for `\let`, which uses it up. -/
theorem global_waits_for_let :
    ∃ m read,
      Relation.ReflTransGen Round
        (Machine.ready.push [.named "global", .named "let", .named "a", .char .letter 'b' none]) m ∧
      Stream.main m = (.ok (some (.named "let")), read) ∧ read.prefixes = { everywhere := true } ∧
      (∃ before, PrefixRound before (.named "let") m) ∧
      (Execution.process (.named "let") read).2.prefixes = {} := by
  have hlet : Machine.ready.lookup (.controlSequence "let") = .execution .letMeaning :=
    Machine.lookup_standard_of_find? (by cbv)
  obtain ⟨hround, hmain⟩ := round_global_let Machine.readable_ready
    (Machine.lookup_standard_of_find? (by cbv)) hlet [.named "a", .char .letter 'b' none]
  obtain ⟨hnext, hfree⟩ := prefix_waits_for_next rfl (.single hround) hmain
  obtain ⟨before, -, hpending⟩ := hnext (by simp [Machine.holding])
  refine ⟨_, _, .single hround, hmain, rfl, ⟨before, hpending⟩, hfree fun kind ⟨ref, hv, hcommand⟩ => ?_⟩
  cases hv
  cases hlet.symm.trans hcommand

end Session

end Gullet
