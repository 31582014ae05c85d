import Gullet.Proofs.Registers.Overflowing
import Gullet.Proofs.Session.Grouping

/-!
# Machines that arise

The evolution of machines allows every assignment, whether or not the interpreter makes it. The machines
that arise are those that its own actions lead to: all that is put together from the acts of execution,
so that no assignment is made but by a command. What is subject to grouping is sound in all of them.
-/

namespace Gullet

/-- The action is put together from the acts of execution: it respects all that they respect. -/
def Run.IsExecution {α : Type} (a : Run α) : Prop :=
  ∀ (P : Run.Relation) [Run.Writing P],
    (∀ prefixes, Run.Respects P (modify fun m => { m with prefixes } : Run PUnit)) → a.Respects P

namespace Run

theorem isExecution_process (t : Token) : (Execution.process t).IsExecution :=
  fun _ _ hwait => respects_process fun kind => respects_prefixModifier kind t hwait

theorem isExecution_main : Stream.main.IsExecution := fun _ _ _ => respects_main

theorem isExecution_pushTokens (ts : List Token) : (pushTokens ts).IsExecution :=
  fun _ _ _ => respects_pushTokens ts

theorem isExecution_openSource (origin : Origin) (content : String) :
    (openSource origin content).IsExecution := fun _ _ _ => respects_openSource origin content

theorem isExecution_define (everywhere expanded : Bool) :
    (Definition.define everywhere expanded).IsExecution := fun _ _ _ => respects_define _ _

theorem isExecution_document (handlers : Handlers) (origin : Origin) (content : String) :
    (Session.document handlers origin content).IsExecution :=
  fun _ _ hwait => respects_document (fun kind t => respects_prefixModifier kind t hwait) _ _ _

end Run

/-- The machines that the interpreter and its host bring about. -/
inductive Machine.Arises : Machine → Prop where
  | standard : Arises standard
  /-- The host chooses what is up to it. -/
  | configure {m : Machine} (h : Arises m) (handlers : Handlers) (cancellation : Cancellation)
      (config : Config) (policy : Policy) (files : FileSystem) (workingDirectory : Option Path)
      (styling : Text.Styling) :
      Arises { m with handlers, cancellation, config, policy, files, workingDirectory, styling }
  /-- An action of the interpreter is carried out, as far as it goes. -/
  | act {m : Machine} (h : Arises m) {α : Type} {a : Run α} (ha : a.IsExecution) : Arises (a m).2
  /-- A document is read. -/
  | parse {m : Machine} (h : Arises m) (handlers : Handlers) (origin : Origin) (content : String) :
      Arises (Session.parse handlers origin content m).2

namespace Run

variable {α : Type} {a : Run α}

/-- Whatever guard the acts of execution keep, the action keeps. -/
theorem IsExecution.guardedAt {I : Machine → Prop} {E : Halt → Machine → Prop}
    [hguard : Machine.ExecutionGuard I E] [Writing (Guarding I E)] (ha : a.IsExecution) {m : Machine}
    (hm : I m) : a.GuardedAt I E m :=
  ha (Guarding I E) (fun _ m hm => guardedAt_modify (hguard.alter m rfl rfl rfl hm)) m hm

theorem IsExecution.evolves (ha : a.IsExecution) : a.Evolves :=
  ha (Keeping Machine.Evolves) fun _ => keeps_modify fun m => .hold m _

end Run

namespace Session

/-- The groups that are left open are closed by tame changes. -/
theorem isSound_closeGroups (groups : List Group) {m : Machine} (h : m.IsSound) :
    (closeGroups groups m).IsSound := by
  induction groups generalizing m with
  | nil => exact h
  | cons g outer ih => exact ih (Scopes.Sound.apply h (c := .closed g) trivial)

theorem isSound_parse (handlers : Handlers) (origin : Origin) (content : String) {m : Machine}
    (h : m.IsSound) : (parse handlers origin content m).2.IsSound := by
  have hdocument : (document handlers origin content _).2.IsSound :=
    ((Run.isExecution_document handlers origin content).guardedAt (E := Halt.AtLeastWord)
      (m := { m with handlers, expansions := 0, history := [] }) h).invariant
  exact isSound_closeGroups _ (m := { (document handlers origin content _).2 with input := {} }) hdocument

end Session

namespace Machine.Arises

variable {m : Machine}

/-- **What is subject to grouping is sound in every machine that arises.** -/
theorem isSound (h : m.Arises) : m.IsSound := by
  induction h with
  | standard => exact Scopes.sound_standard
  | configure h handlers cancellation config policy files workingDirectory styling ih => exact ih
  | act h ha ih => exact (ha.guardedAt (E := Halt.AtLeastWord) ih).invariant
  | parse h handlers origin content ih => exact Session.isSound_parse handlers origin content ih

theorem reachable (h : m.Arises) : m.Reachable := by
  induction h with
  | standard => exact .standard
  | configure h handlers cancellation config policy files workingDirectory styling ih =>
    exact ih.configure handlers cancellation config policy files workingDirectory styling
  | @act m h α a ha ih => exact ih.evolve (ha.evolves m)
  | parse h handlers origin content ih => exact ih.parse handlers origin content

end Machine.Arises

end Gullet
