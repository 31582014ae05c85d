import Mathlib.Order.Defs.Unbundled
import Gullet.Machine.Loop
import Gullet.Proofs.Run.Evaluation

/-!
# Actions that keep to a relation

An action keeps to a relation between machines if it leads, however it ends, from each machine to one
that is related to it. For a preorder it is enough that the parts of an action keep to it.
-/

namespace Gullet.Run

variable {α β : Type}

/-- Every machine is related to the one that the action leads to. -/
def Keeps (R : Machine → Machine → Prop) (a : Run α) : Prop := ∀ m, R m (a m).2

variable {R : Machine → Machine → Prop} [IsPreorder Machine R]

@[grind .] theorem keeps_pure (a : α) : (pure a : Run α).Keeps R := fun m => refl m

@[grind .] theorem keeps_throw (h : Halt) : (throw h : Run α).Keeps R := fun m => refl m

@[grind .] theorem keeps_get : (get : Run Machine).Keeps R := fun m => refl m

@[grind .] theorem keeps_fail (f : Fault) : (fail f : Run α).Keeps R := fun m => refl m

omit [IsPreorder Machine R] in
theorem keeps_modify {f : Machine → Machine} (h : ∀ m, R m (f m)) : (modify f : Run PUnit).Keeps R :=
  h

namespace Keeps

/-- What follows need only keep to the preorder after a result that can be given. -/
theorem bind_of_mayGive {a : Run α} {f : α → Run β} (ha : a.Keeps R)
    (hf : ∀ x, a.MayGive x → (f x).Keeps R) : (a >>= f).Keeps R := by
  intro m
  have h := ha m
  cases hr : a m with
  | mk result m' =>
    rw [hr] at h
    cases result with
    | error halt => simpa [bind_of_error hr] using h
    | ok x => simpa [bind_of_ok hr] using trans_of R h (hf x ⟨m, m', hr⟩ m')

@[grind .] theorem bind {a : Run α} {f : α → Run β} (ha : a.Keeps R) (hf : ∀ x, (f x).Keeps R) :
    (a >>= f).Keeps R := ha.bind_of_mayGive fun x _ => hf x

@[grind .] theorem map {a : Run α} (f : α → β) (ha : a.Keeps R) : (f <$> a).Keeps R := by
  rw [map_eq_pure_bind]
  exact ha.bind fun x => keeps_pure (f x)

theorem tryCatch {a : Run α} {handler : Halt → Run α} (ha : a.Keeps R)
    (hh : ∀ h, (handler h).Keeps R) : (MonadExcept.tryCatch a handler).Keeps R := by
  intro m
  have h := ha m
  rw [tryCatch_eval]
  cases hr : a m with
  | mk result m' =>
    rw [hr] at h
    cases result with
    | error halt => exact trans_of R h (hh halt m')
    | ok x => exact h

@[grind .] theorem during {a : Run α} (operation : Operation) (t : Token) (ha : a.Keeps R) :
    (Run.during operation t a).Keeps R := by
  refine tryCatch ha fun h => ?_
  cases h with
  | failed d => exact keeps_get.bind fun m => keeps_throw _
  | overflow => exact keeps_throw _
  | reversedSlice => exact keeps_throw _
  | outOfSteps => exact keeps_throw _

@[grind .] theorem forM {xs : List α} {f : α → Run PUnit} (hf : ∀ x, (f x).Keeps R) :
    (xs.forM f).Keeps R := by
  induction xs with
  | nil => exact keeps_pure _
  | cons x rest ih => exact (hf x).bind fun _ => ih

@[grind .] theorem option_forM {x : Option α} {f : α → Run PUnit} (hf : ∀ x, (f x).Keeps R) :
    (x.forM f).Keeps R := by
  cases x with
  | none => exact keeps_pure _
  | some x => exact hf x

/-! ### Repetition -/

@[grind .] theorem loop {step : β → Run (β ⊕ α)} (h : ∀ b, (step b).Keeps R) (b : β) :
    (Run.loop step b).Keeps R := by
  intro m
  induction m using progress_induction generalizing b with
  | h m ih =>
    have hstep := h b m
    cases hs : step b m with
    | mk result m' =>
      rw [hs] at hstep
      rcases result with halt | b' | a
      · rw [loop_of_error hs]
        exact hstep
      · by_cases hp : Progress m m'
        · rw [loop_of_progress hs hp]
          exact trans_of R hstep (ih m' hp b')
        · rw [loop_of_stall hs hp]
          exact hstep
      · rw [loop_of_answer hs]
        exact hstep

/-- An action that calls itself keeps to a preorder if it does so whenever its calls do. -/
theorem fix {body : Run α → Run α} (h : ∀ again : Run α, again.Keeps R → (body again).Keeps R) :
    (Run.fix body).Keeps R := by
  intro m
  induction m using progress_induction with
  | h m ih =>
    rw [fix_eq]
    refine h _ (fun m' => ?_) m
    split
    case isTrue hp => exact ih m' hp
    case isFalse => exact refl m'

end Keeps

end Gullet.Run
