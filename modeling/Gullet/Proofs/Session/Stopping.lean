import Mathlib.Logic.Relation
import Gullet.Proofs.Session.Arising
import Gullet.Proofs.Session.Ending
import Gullet.Proofs.Stream.Dropping

/-!
# What stops the main loop

Arithmetic wraps around or reports that a number is too large, and so does the reading of numbers; but
the least word, which wrapping around can lead to, has no negative. So nearly all that stops the main
loop is a failure that is reported. The exceptions need a register that holds the least word, or
comments that are kept.
-/

namespace Gullet.Session

/-- The round that begins with the machine is stopped, and leaves another machine behind. -/
def Stops (m : Machine) (halt : Halt) (m' : Machine) : Prop :=
  Stream.main m = (.error halt, m') ∨
    ∃ t read, Stream.main m = (.ok (some t), read) ∧ Execution.process t read = (.error halt, m')

variable {m n m' : Machine} {halt : Halt}

/-- A round does what the interpreter does in two actions. -/
theorem Round.arises (h : Round m m') (hm : m.Arises) : m'.Arises := by
  obtain ⟨t, read, hmain, hprocess⟩ := h
  have hread := hm.act Run.isExecution_main
  rw [hmain] at hread
  have hafter := hread.act (Run.isExecution_process t)
  rwa [hprocess] at hafter

section

variable {I : Machine → Prop} {E : Halt → Machine → Prop} [Machine.ExecutionGuard I E]
  [Run.Writing (Run.Guarding I E)]

/-- A round keeps what the actions of the interpreter keep. -/
theorem Round.invariant (E : Halt → Machine → Prop) [Machine.ExecutionGuard I E]
    [Run.Writing (Run.Guarding I E)] (h : Round m m') (hm : I m) : I m' := by
  obtain ⟨t, read, hmain, hprocess⟩ := h
  have hread := (Run.isExecution_main.guardedAt (E := E) hm).invariant
  rw [hmain] at hread
  have hafter := ((Run.isExecution_process t).guardedAt (E := E) hread).invariant
  rwa [hprocess] at hafter

/-- What holds wherever the actions of the interpreter stop holds where a round stops. -/
theorem Stops.excuse (h : Stops m halt m') (hm : I m) : E halt m' := by
  rcases h with hmain | ⟨t, read, hmain, hprocess⟩
  · have hstopped := (Run.isExecution_main.guardedAt (E := E) hm).excuse halt
    rw [hmain] at hstopped
    exact hstopped rfl
  · have hread := (Run.isExecution_main.guardedAt (E := E) hm).invariant
    rw [hmain] at hread
    have hstopped := ((Run.isExecution_process t).guardedAt (E := E) hread).excuse halt
    rw [hprocess] at hstopped
    exact hstopped rfl

end

/-- A main loop that is stopped, but not for want of steps, is stopped in one of its rounds. -/
theorem exists_stops {steps : Nat} (h : mainLoop steps m = (.error halt, m'))
    (hhalt : halt ≠ .outOfSteps) : ∃ n, Relation.ReflTransGen Round m n ∧ Stops n halt m' := by
  induction steps generalizing m with
  | zero =>
    rw [mainLoop] at h
    rcases hmain : Stream.main m with ⟨halt' | _ | t, read⟩ <;> rw [hmain] at h <;> cases h
    · exact ⟨m, .refl, .inl hmain⟩
    · exact absurd rfl hhalt
  | succ steps ih =>
    rw [mainLoop] at h
    rcases hmain : Stream.main m with ⟨halt' | _ | t, read⟩ <;> rw [hmain] at h
    · cases h
      exact ⟨m, .refl, .inl hmain⟩
    · cases h
    · dsimp only at h
      rcases hprocess : Execution.process t read with ⟨halt' | x, after⟩ <;> rw [hprocess] at h
      · cases h
        exact ⟨m, .refl, .inr ⟨t, read, hmain, hprocess⟩⟩
      · obtain ⟨n, hrun, hstops⟩ := ih h
        exact ⟨n, .head ⟨t, read, hmain, hprocess⟩ hrun, hstops⟩

/-- A round that is stopped is not stopped for want of steps. -/
theorem Stops.ne_outOfSteps (h : Stops m halt m') (hm : m.Arises) : halt ≠ .outOfSteps := by
  have hready := hm.reachable.ready
  rcases h with hmain | ⟨t, read, hmain, hprocess⟩
  · exact (Run.takes_main m hready).of_error hmain
  · have htook := ((Run.takes_main m hready).of_ok hmain).1
    by_cases hrenames : read.RenamesEnd t
    · have hread := hready.of_continues htook.continues
      exact (Run.ensures_process_of_renamesEnd hread hrenames).of_error hprocess
    · exact (Run.ensures_process hready htook hrenames).of_error hprocess

/-- The machines of a run arise, and they drop comments if the first one does. -/
theorem arises_of_rounds (hm : m.Arises) (hcomments : m.DropsComments)
    (hrun : Relation.ReflTransGen Round m n) : n.Arises ∧ n.DropsComments := by
  induction hrun with
  | refl => exact ⟨hm, hcomments⟩
  | tail _ hround ih => exact ⟨hround.arises ih.1, hround.invariant Halt.AtNoComment ih.2⟩

/-- **Whatever stops the main loop is reported**, but for one thing: where the negative of the least word
is asked for, which only happens when a register holds that word. -/
theorem halt_cases_of_stops (hm : m.Arises) (hcomments : m.DropsComments)
    (hrun : Relation.ReflTransGen Round m n) (h : Stops n halt m') :
    (∃ d, halt = .failed d) ∨ halt = .overflow ∧ m'.scopes.store.HoldsLeast := by
  obtain ⟨hn, hdrops⟩ := arises_of_rounds hm hcomments hrun
  have hleast : Halt.AtLeastWord halt m' := h.excuse hn.isSound
  have hcomment : Halt.AtNoComment halt m' := h.excuse hdrops
  cases halt with
  | failed d => exact .inl ⟨d, rfl⟩
  | overflow => exact .inr ⟨rfl, hleast rfl⟩
  | reversedSlice => exact absurd rfl hcomment
  | outOfSteps => exact absurd rfl (h.ne_outOfSteps hn)

/-- Whether the negative of the least word was asked for. -/
def isOverflow : Halt → Bool
  | .overflow => true
  | _ => false

/-- The greatest number is advanced, which wraps around to the least word. When that is read as a number
of scaled points, its negative is asked for. -/
theorem halt_cases_of_stops_advance :
    let m := (Run.openSource (.text "main")
      "\\count0=2147483647 \\advance\\count0 by 1 \\dimen0=\\count0 sp" Machine.standard).2
    m.Arises ∧ m.DropsComments ∧
      ∃ n m', mainLoop 3 m = (.error .overflow, m') ∧ Relation.ReflTransGen Round m n ∧
        Stops n .overflow m' ∧ m'.scopes.store.HoldsLeast := by
  intro m
  have harises : m.Arises := .act .standard (Run.isExecution_openSource _ _)
  have hcomments : m.DropsComments := by
    refine ⟨rfl, Input.everyLexer_cons.2 ⟨fun lexer hl => ?_, Input.everyLexer_bottom _⟩⟩
    cases hl
    rfl
  have hvalue : (mainLoop 3 m).1.mapError isOverflow = .error true := by decide +kernel
  rcases hloop : mainLoop 3 m with ⟨halt | x, m'⟩
  · rw [hloop] at hvalue
    cases halt with
    | overflow =>
      obtain ⟨n, hrun, hstops⟩ := exists_stops hloop nofun
      refine ⟨harises, hcomments, n, m', rfl, hrun, hstops, ?_⟩
      rcases halt_cases_of_stops harises hcomments hrun hstops with ⟨d, hd⟩ | ⟨-, hleast⟩
      · cases hd
      · exact hleast
    | _ => cases hvalue
  · rw [hloop] at hvalue
    cases hvalue

end Gullet.Session
