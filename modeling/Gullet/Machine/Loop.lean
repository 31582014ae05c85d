import Gullet.Machine

/-!
# Repeating an action

Readers repeat a step until it gives an answer. Every round of such a loop either performs an expansion,
of which there is a limited number, or takes something from the input; so the loop ends. A round that
does neither ends the run. An action that calls itself is bounded in the same way.
-/

namespace Gullet.Run

variable {α β : Type}

/-- Repeats `step` as long as it performs no expansion. Gives the answer, or the state of the loop after
a round with an expansion. -/
def quietLoop (step : β → Run (β ⊕ α)) (b : β) (m : Machine) : Except Halt (β ⊕ α) × Machine :=
  match step b m with
  | (.error h, m') => (.error h, m')
  | (.ok (.inr a), m') => (.ok (.inr a), m')
  | (.ok (.inl b'), m') =>
    if m'.expansionsLeft = m.expansionsLeft then
      if m'.input.size < m.input.size then quietLoop step b' m'
      else (.error .outOfSteps, m')
    else (.ok (.inl b'), m')
termination_by m.input.size

/-- Repeats `step` until it gives an answer. -/
def loopFrom (step : β → Run (β ⊕ α)) (b : β) (m : Machine) : Except Halt α × Machine :=
  match quietLoop step b m with
  | (.error h, m') => (.error h, m')
  | (.ok (.inr a), m') => (.ok a, m')
  | (.ok (.inl b'), m') =>
    if m'.expansionsLeft < m.expansionsLeft then loopFrom step b' m'
    else (.error .outOfSteps, m')
termination_by m.expansionsLeft

/-- Repeats `step` until it gives an answer. -/
def loop (step : β → Run (β ⊕ α)) (b : β) : Run α := loopFrom step b

/-- Whether a round of a loop led from one machine to a smaller one. -/
def Progress (m m' : Machine) : Prop :=
  m'.expansionsLeft < m.expansionsLeft ∨
    m'.expansionsLeft = m.expansionsLeft ∧ m'.input.size < m.input.size

instance (m m' : Machine) : Decidable (Progress m m') :=
  inferInstanceAs (Decidable (_ ∨ _))

/-- What holds of a machine if it holds of all smaller ones holds of every machine. -/
theorem progress_induction {motive : Machine → Prop}
    (h : ∀ m, (∀ m', Progress m m' → motive m') → motive m) (m : Machine) : motive m := by
  induction hn : m.expansionsLeft using Nat.strongRecOn generalizing m with
  | ind n ihn =>
    induction hk : m.input.size using Nat.strongRecOn generalizing m with
    | ind k ihk =>
      refine h m fun m' hp => ?_
      rcases hp with hlt | ⟨heq, hlt⟩
      · exact ihn _ (by omega) m' rfl
      · exact ihk _ (by omega) m' (by omega) rfl

/-- A loop whose step stops the run stops the run. -/
theorem loop_of_error {step : β → Run (β ⊕ α)} {b : β} {m m' : Machine} {h : Halt}
    (hs : step b m = (.error h, m')) : loop step b m = (.error h, m') := by
  rw [loop, loopFrom, quietLoop, hs]

/-- A loop whose step gives an answer gives that answer. -/
theorem loop_of_answer {step : β → Run (β ⊕ α)} {b : β} {m m' : Machine} {a : α}
    (hs : step b m = (.ok (.inr a), m')) : loop step b m = (.ok a, m') := by
  rw [loop, loopFrom, quietLoop, hs]

/-- A loop whose step makes progress goes on from where the step led. -/
theorem loop_of_progress {step : β → Run (β ⊕ α)} {b b' : β} {m m' : Machine}
    (hs : step b m = (.ok (.inl b'), m')) (hp : Progress m m') :
    loop step b m = loop step b' m' := by
  rcases hp with hlt | ⟨heq, hlt⟩
  · rw [loop, loopFrom, quietLoop, hs]
    simp [Nat.ne_of_lt hlt, hlt]
    rfl
  · rw [loop, loopFrom, quietLoop, hs]
    simp only [heq, hlt, ↓reduceIte]
    rw [loop, loopFrom, heq]

/-- A loop whose step makes no progress ends the run. -/
theorem loop_of_stall {step : β → Run (β ⊕ α)} {b b' : β} {m m' : Machine}
    (hs : step b m = (.ok (.inl b'), m')) (hp : ¬Progress m m') :
    loop step b m = (.error .outOfSteps, m') := by
  unfold Progress at hp
  rw [loop, loopFrom, quietLoop, hs]
  dsimp only
  by_cases heq : m'.expansionsLeft = m.expansionsLeft
  · rw [if_pos heq, if_neg (fun hlt => hp (.inr ⟨heq, hlt⟩))]
  · rw [if_neg heq]
    exact if_neg fun hlt => hp (.inl hlt)

/-- Runs an action that may call itself through its argument, as long as no expansion is performed;
after one, calls go to `outer`. -/
def quietFix (body : Run α → Run α) (outer : Run α) (m : Machine) : Except Halt α × Machine :=
  body (fun m' =>
    if m'.expansionsLeft = m.expansionsLeft then
      if m'.input.size < m.input.size then quietFix body outer m'
      else (.error .outOfSteps, m')
    else outer m') m
termination_by m.input.size

/-- Runs an action that may call itself through its argument. -/
def fixFrom (body : Run α → Run α) (m : Machine) : Except Halt α × Machine :=
  quietFix body
    (fun m' =>
      if m'.expansionsLeft < m.expansionsLeft then fixFrom body m'
      else (.error .outOfSteps, m')) m
termination_by m.expansionsLeft

/-- Runs an action that may call itself through its argument. -/
def fix (body : Run α → Run α) : Run α := fixFrom body

/-- An action that calls itself goes on from wherever progress has been made. -/
theorem fix_eq (body : Run α → Run α) (m : Machine) :
    fix body m = body (fun m' =>
      if Progress m m' then fix body m' else (.error .outOfSteps, m')) m := by
  unfold fix
  rw [fixFrom, quietFix]
  congr 1
  funext m'
  by_cases hp : Progress m m'
  · rw [if_pos hp]
    rcases hp with hlt | ⟨heq, hlt⟩
    · rw [if_neg (Nat.ne_of_lt hlt), if_pos hlt]
    · rw [if_pos heq, if_pos hlt, fixFrom, heq]
  · rw [if_neg hp]
    unfold Progress at hp
    by_cases heq : m'.expansionsLeft = m.expansionsLeft
    · rw [if_pos heq, if_neg (by omega)]
    · rw [if_neg heq, if_neg (by omega)]

end Gullet.Run
