import Gullet.Machine

/-!
# Evaluating actions

What an action does with a machine, computed from what its parts do.
-/

namespace Gullet.Run

variable {α β : Type}

/-- The action gives the result on some machine. -/
def MayGive (a : Run α) (x : α) : Prop := ∃ m m', a m = (.ok x, m')

@[simp] theorem pure_eval (a : α) (m : Machine) : (pure a : Run α) m = (.ok a, m) := rfl

@[simp] theorem throw_eval (h : Halt) (m : Machine) : (throw h : Run α) m = (.error h, m) := rfl

@[simp] theorem get_eval (m : Machine) : (get : Run Machine) m = (.ok m, m) := rfl

@[simp] theorem set_eval (m m' : Machine) : (set m' : Run PUnit) m = (.ok ⟨⟩, m') := rfl

@[simp] theorem modify_eval (f : Machine → Machine) (m : Machine) :
    (modify f : Run PUnit) m = (.ok ⟨⟩, f m) := rfl

theorem bind_eval (a : Run α) (f : α → Run β) (m : Machine) :
    (a >>= f) m =
      match a m with
      | (.ok x, m') => f x m'
      | (.error h, m') => (.error h, m') := by
  show ExceptT.bindCont f (a m).1 (a m).2 = _
  rcases a m with ⟨⟨⟩, m'⟩ <;> rfl

/-- An action goes on from where its first part leads. -/
theorem bind_of_ok {a : Run α} {f : α → Run β} {m m' : Machine} {x : α} (h : a m = (.ok x, m')) :
    (a >>= f) m = f x m' := by
  rw [bind_eval, h]

/-- An action stops where its first part stops. -/
theorem bind_of_error {a : Run α} {f : α → Run β} {m m' : Machine} {halt : Halt}
    (h : a m = (.error halt, m')) : (a >>= f) m = (.error halt, m') := by
  rw [bind_eval, h]

/-- An action that was not stopped was not stopped in its first part. -/
theorem exists_of_bind_eq_ok {a : Run α} {f : α → Run β} {m m' : Machine} {y : β}
    (h : (a >>= f) m = (.ok y, m')) : ∃ x m₁, a m = (.ok x, m₁) ∧ f x m₁ = (.ok y, m') := by
  rw [bind_eval] at h
  split at h
  · exact ⟨_, _, by assumption, h⟩
  · cases h

@[simp] theorem get_bind_eval (f : Machine → Run β) (m : Machine) : (get >>= f) m = f m m := rfl

@[simp] theorem set_bind_eval (m m' : Machine) (f : PUnit → Run β) :
    ((set m' : Run PUnit) >>= f) m = f ⟨⟩ m' := rfl

@[simp] theorem modify_bind_eval (g : Machine → Machine) (f : PUnit → Run β) (m : Machine) :
    ((modify g : Run PUnit) >>= f) m = f ⟨⟩ (g m) := rfl

@[simp] theorem fail_eval (f : Fault) (m : Machine) :
    (fail f : Run α) m = (.error (.failed (.ofFault m.atlas f)), m) := rfl

@[simp] theorem change_eval (c : Scopes.Change) (m : Machine) :
    change c m = (.ok ⟨⟩, m.change c) := rfl

theorem tryCatch_eval (a : Run α) (handler : Halt → Run α) (m : Machine) :
    (tryCatch a handler) m =
      match a m with
      | (.ok x, m') => (.ok x, m')
      | (.error h, m') => handler h m' := by
  simp only [tryCatch, tryCatchThe, MonadExceptOf.tryCatch, ExceptT.tryCatch, ExceptT.mk, bind,
    StateT.bind]
  rcases a m with ⟨⟨⟩, m'⟩ <;> rfl

/-- What an action does on behalf of a command, if it is not stopped. -/
theorem during_of_ok {a : Run α} {m m' : Machine} {x : α} (operation : Operation) (t : Token)
    (h : a m = (.ok x, m')) : during operation t a m = (.ok x, m') := by
  unfold during
  rw [tryCatch_eval, h]

theorem during_of_failed {a : Run α} {m : Machine} {d : Diagnostic} (operation : Operation) (t : Token)
    (h : (a m).1 = .error (.failed d)) : ∃ d', (during operation t a m).1 = .error (.failed d') := by
  unfold during
  rw [tryCatch_eval, show a m = (.error (.failed d), (a m).2) from Prod.ext h rfl]
  exact ⟨_, rfl⟩

/-- Running an action on behalf of a command leads to the same machine. -/
theorem during_snd (operation : Operation) (t : Token) (a : Run α) (m : Machine) :
    (during operation t a m).2 = (a m).2 := by
  unfold during
  rw [tryCatch_eval]
  rcases a m with ⟨(d | _ | _) | x, m'⟩ <;> rfl

/-- An action that was not stopped on behalf of a command was not stopped. -/
theorem of_during_eq_ok {a : Run α} {m m' : Machine} {x : α} {operation : Operation} {t : Token}
    (h : during operation t a m = (.ok x, m')) : a m = (.ok x, m') := by
  unfold during at h
  rw [tryCatch_eval] at h
  split at h
  · rename_i y m₁ hr
    rw [hr]
    exact h
  · rename_i halt m₁ hr
    cases halt with
    | failed d => cases h
    | overflow => cases h
    | reversedSlice => cases h
    | outOfSteps => cases h

@[simp] theorem lookup_eval (ref : CommandRef) (m : Machine) :
    lookup ref m = (.ok (m.lookup ref), m) := rfl

@[simp] theorem emit_eval (e : Event) (m : Machine) : emit e m = (.ok ⟨⟩, m.emit e) := rfl

/-- Opening a group changes the scopes and gives out an event. -/
theorem beginGroup_eval (kind : GroupKind) (opener : Token) (m : Machine) :
    beginGroup kind opener m =
      (.ok ⟨⟩, (m.change (.opened { kind, opener })).emit (.beginGroup { kind, opener })) := rfl

/-- Closing a group fails and changes nothing, or does the same for the innermost one, which has the
given kind. -/
theorem endGroup_eval (kind : GroupKind) (closer : Token) (m : Machine) :
    ((∃ f, endGroup kind closer m = fail f m) ∧
        ∀ g outer, m.scopes.groups = g :: outer → g.kind ≠ kind) ∨
      ∃ g outer, m.scopes.groups = g :: outer ∧ g.kind = kind ∧
        endGroup kind closer m =
          (.ok ⟨⟩, (m.change (.closed { g with closer := some closer })).emit
            (.endGroup { g with closer := some closer })) := by
  unfold endGroup
  rw [get_bind_eval]
  cases hg : m.scopes.groups with
  | nil => exact .inl ⟨⟨.noGroupToEnd closer, rfl⟩, fun _ _ h => nomatch h⟩
  | cons g outer =>
    dsimp only
    by_cases hk : g.kind = kind
    · refine .inr ⟨g, outer, rfl, hk, ?_⟩
      simp only [hk, ne_eq, not_true_eq_false, if_false]
      rw [bind_of_ok (change_eval _ m), emit_eval]
    · refine .inl ⟨⟨.wrongGroupEnd closer g.kind kind, ?_⟩, ?_⟩
      · simp only [hk, ne_eq, not_false_eq_true, if_true]
      · intro g' outer' h
        obtain ⟨rfl, -⟩ := List.cons.inj h
        exact hk

end Gullet.Run
