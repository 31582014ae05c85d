import Gullet.Machine.Loop
import Gullet.Proofs.Run.Evaluation

/-!
# What an action ensures

An action ensures a condition if the condition holds of its result and of the machine that it leads to,
unless the action stops the run. It may stop the run for any reason but one: that the steps allowed for
the run are used up. So a loop must make progress in every round, and this is where that is demanded.
-/

namespace Gullet.Run

variable {α β : Type}

/-- The action leads to a result and a machine that satisfy the condition, or stops the run, but not
because steps are used up. -/
def Ensures (a : Run α) (m : Machine) (post : α → Machine → Prop) : Prop :=
  match a m with
  | (.ok x, m') => post x m'
  | (.error h, _) => h ≠ .outOfSteps

variable {m : Machine} {post : α → Machine → Prop}

theorem ensures_pure {x : α} (h : post x m) : (pure x : Run α).Ensures m post := h

theorem ensures_throw {h : Halt} (hh : h ≠ .outOfSteps) : (throw h : Run α).Ensures m post := hh

theorem ensures_fail (f : Fault) : (fail f : Run α).Ensures m post :=
  fun h => nomatch h

theorem ensures_modify {f : Machine → Machine} {post : PUnit → Machine → Prop} (h : post ⟨⟩ (f m)) :
    (modify f : Run PUnit).Ensures m post := h

namespace Ensures

variable {a : Run α} {A : α → Machine → Prop}

/-- What an action that did not stop has ensured. -/
theorem of_ok (h : a.Ensures m post) {x : α} {m' : Machine} (hr : a m = (.ok x, m')) : post x m' := by
  simpa [Ensures, hr] using h

/-- Why an action has stopped. -/
theorem of_error (h : a.Ensures m post) {halt : Halt} {m' : Machine}
    (hr : a m = (.error halt, m')) : halt ≠ .outOfSteps := by
  simpa [Ensures, hr] using h

theorem mono (ha : a.Ensures m A) (h : ∀ x m', A x m' → post x m') : a.Ensures m post := by
  unfold Ensures at ha ⊢
  split
  case h_1 x m' hr =>
    rw [hr] at ha
    exact h x m' ha
  case h_2 halt m' hr =>
    rw [hr] at ha
    exact ha

theorem bind {f : α → Run β} {post : β → Machine → Prop} (ha : a.Ensures m A)
    (hf : ∀ x m', A x m' → (f x).Ensures m' post) : (a >>= f).Ensures m post := by
  cases hr : a m with
  | mk result m' =>
    cases result with
    | error halt =>
      have hh := ha.of_error hr
      unfold Ensures
      rw [bind_of_error hr]
      exact hh
    | ok x =>
      have hx := hf x m' (ha.of_ok hr)
      unfold Ensures at hx ⊢
      rw [bind_of_ok hr]
      exact hx

theorem get_bind {f : Machine → Run α} (h : (f m).Ensures m post) : (get >>= f).Ensures m post := h

theorem map (f : α → β) {post : β → Machine → Prop}
    (ha : a.Ensures m fun x m' => post (f x) m') : (f <$> a).Ensures m post := by
  rw [map_eq_pure_bind]
  exact ha.bind fun x m' hx => ensures_pure hx

theorem tryCatch {handler : Halt → Run α} (ha : a.Ensures m post)
    (hh : ∀ halt m', halt ≠ .outOfSteps → (handler halt).Ensures m' post) :
    (MonadExcept.tryCatch a handler).Ensures m post := by
  unfold Ensures
  rw [tryCatch_eval]
  cases hr : a m with
  | mk result m' =>
    cases result with
    | ok x => exact ha.of_ok hr
    | error halt => exact hh halt m' (ha.of_error hr)

theorem during (operation : Operation) (t : Token) (ha : a.Ensures m post) :
    (Run.during operation t a).Ensures m post := by
  refine tryCatch ha fun halt m' hh => ?_
  cases halt with
  | failed d => exact get_bind (ensures_throw fun h => nomatch h)
  | overflow => exact ensures_throw hh
  | reversedSlice => exact ensures_throw hh
  | outOfSteps => exact absurd rfl hh

/-! ### Repetition -/

/-- What a loop ensures: every round keeps the invariant and makes progress, or gives an answer. -/
theorem loop {step : β → Run (β ⊕ α)} {I : β → Machine → Prop}
    (h : ∀ b m, I b m → (step b).Ensures m fun r m' =>
      match r with
      | .inl b' => Progress m m' ∧ I b' m'
      | .inr a => post a m')
    {b : β} (hi : I b m) : (Run.loop step b).Ensures m post := by
  induction m using progress_induction generalizing b with
  | h m ih =>
    have hround := h b m hi
    cases hr : step b m with
    | mk result m' =>
      rcases result with halt | b' | a
      · have hh := hround.of_error hr
        unfold Ensures
        rw [loop_of_error hr]
        exact hh
      · obtain ⟨hp, hi'⟩ := hround.of_ok hr
        have hrest := ih m' hp hi'
        unfold Ensures at hrest ⊢
        rw [loop_of_progress hr hp]
        exact hrest
      · have ha := hround.of_ok hr
        unfold Ensures
        rw [loop_of_answer hr]
        exact ha

/-- What an action that calls itself ensures, if it makes progress before each call. -/
theorem fix {body : Run α → Run α} {P : Machine → Prop} {Q : Machine → α → Machine → Prop}
    (h : ∀ m again, P m →
      (∀ m', P m' → Progress m m' → Run.Ensures again m' (Q m')) →
        (body again).Ensures m (Q m)) (hm : P m) :
    (Run.fix body).Ensures m (Q m) := by
  induction m using progress_induction with
  | h m ih =>
    unfold Ensures
    rw [fix_eq]
    refine h m _ hm fun m' hm' hp => ?_
    unfold Ensures
    dsimp only
    rw [if_pos hp]
    exact ih m' hp hm'

end Ensures

end Gullet.Run
