import Gullet.Machine.Loop
import Gullet.Proofs.Run.Evaluation

/-!
# Laws of loops

What every round of a loop keeps holds where the loop ends, if it is not stopped. And a loop whose rounds
do the same as those of another one, with states and answers under other names, does the same.
-/

namespace Gullet.Run

variable {α α' β β' : Type}

/-! ### Invariants -/

section

variable {step : β → Run (β ⊕ α)} {I : β → Machine → Prop} {post : α → Machine → Prop}

/-- What holds before the first round and is kept by every round holds after the last one. -/
theorem of_loop_eq_ok (I : β → Machine → Prop) (post : α → Machine → Prop)
    (hstep : ∀ {b : β} {r : β ⊕ α} {m m' : Machine}, I b m → step b m = (.ok r, m') →
      Sum.elim I post r m')
    {b : β} {m m' : Machine} {a : α} (hb : I b m) (h : loop step b m = (.ok a, m')) : post a m' := by
  induction m using progress_induction generalizing b with
  | h m ih =>
    cases hs : step b m with
    | mk result m₁ =>
      rcases result with halt | b' | x
      · rw [loop_of_error hs] at h
        cases h
      · by_cases hp : Progress m m₁
        · rw [loop_of_progress hs hp] at h
          exact ih m₁ hp (hstep hb hs) h
        · rw [loop_of_stall hs hp] at h
          cases h
      · rw [loop_of_answer hs] at h
        cases h
        exact hstep hb hs

end

/-! ### Renaming -/

theorem map_eval (f : α → α') (a : Run α) (m : Machine) :
    (f <$> a) m = ((a m).1.map f, (a m).2) := by
  rw [map_eq_pure_bind, bind_eval]
  rcases a m with ⟨halt | x, m'⟩
  · rfl
  · rfl

section

variable {step : β → Run (β ⊕ α)} {step' : β' → Run (β' ⊕ α')} {g : β → β'} {f : α → α'}

theorem loop_map (h : ∀ b, step' (g b) = Sum.map g f <$> step b) (b : β) :
    loop step' (g b) = f <$> loop step b := by
  funext m
  rw [map_eval]
  induction m using progress_induction generalizing b with
  | h m ih =>
    have hstep : step' (g b) m = ((step b m).1.map (Sum.map g f), (step b m).2) := by
      rw [h, map_eval]
    cases hs : step b m with
    | mk result m' =>
      rw [hs] at hstep
      rcases result with halt | b' | a
      · rw [loop_of_error hs, loop_of_error hstep]
        rfl
      · by_cases hp : Progress m m'
        · rw [loop_of_progress hs hp, loop_of_progress hstep hp]
          exact ih m' hp b'
        · rw [loop_of_stall hs hp, loop_of_stall hstep hp]
          rfl
      · rw [loop_of_answer hs, loop_of_answer hstep]
        rfl

end

end Gullet.Run
