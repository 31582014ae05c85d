import Gullet.Proofs.Evolution.Grouping

/-!
# Sessions and the machines they lead to

The main loop, and what stands around it, keep to the evolution of machines up to the point where the
input is dropped and all groups are closed. The machines that a host can bring about are those that the
standard machine leads to by evolving, by reading documents, and by choices of the host.
-/

namespace Gullet

namespace Session

theorem evolves_document (handlers : Handlers) (origin : Origin) (content : String) :
    (document handlers origin content).Evolves :=
  Run.respects_document (P := Run.Keeping Machine.Evolves) Run.evolves_modifier handlers origin content

/-- The groups that are open are closed one after the other. -/
theorem evolves_closeGroups (groups : List Group) {m : Machine} (hg : m.scopes.groups = groups) :
    m.Evolves (closeGroups groups m) ∧ (closeGroups groups m).scopes.groups = [] := by
  induction groups generalizing m with
  | nil => exact ⟨.refl m, hg⟩
  | cons g outer ih =>
    have htail : ((m.change (.closed g)).emit (.endGroup g)).scopes.groups = outer := by
      show m.scopes.groups.tail = outer
      rw [hg, List.tail_cons]
    have hrest := ih htail
    exact ⟨.trans (.closeGroup m hg rfl) hrest.1, hrest.2⟩

@[simp] theorem input_closeGroups (groups : List Group) (m : Machine) :
    (closeGroups groups m).input = m.input := by
  induction groups generalizing m with
  | nil => rfl
  | cons g outer ih => exact ih _

/-- When the input has been dropped and all groups are closed, the levels of nesting are forgotten. -/
theorem unwind_evolves (m : Machine) :
    ∃ closed : Machine, Machine.Evolves { m with input := {} } closed ∧ closed.scopes.groups = [] ∧
      closed.input = {} ∧ unwind m = { closed with expansionDepth := 0, fullExpansions := 0 } :=
  have h := evolves_closeGroups m.scopes.groups (m := { m with input := {} }) rfl
  ⟨_, h.1, h.2, input_closeGroups _ _, rfl⟩

end Session

/-- The machines that a host can bring about. -/
inductive Machine.Reachable : Machine → Prop where
  | standard : Reachable standard
  /-- The host chooses what is up to it. -/
  | configure {m : Machine} (h : Reachable m) (handlers : Handlers) (cancellation : Cancellation)
      (config : Config) (policy : Policy) (files : FileSystem) (workingDirectory : Option Path)
      (styling : Text.Styling) :
      Reachable { m with
        handlers, cancellation, config, policy, files, workingDirectory, styling }
  /-- The machine evolves, as it does while the input is processed. -/
  | evolve {m m' : Machine} (h : Reachable m) (he : m.Evolves m') : Reachable m'
  /-- A document is read. -/
  | parse {m : Machine} (h : Reachable m) (handlers : Handlers) (origin : Origin)
      (content : String) : Reachable (Session.parse handlers origin content m).2

end Gullet
