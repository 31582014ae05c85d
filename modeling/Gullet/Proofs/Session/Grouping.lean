import Gullet.Proofs.Evolution.Session

/-!
# Grouping in a whole document

However the reading of a document ends, its groups have been properly nested, nothing of them is left,
and of all assignments in it those last that were global or made outside all groups.
-/

namespace Gullet

namespace Session

/-- What reading a document comes to: the machine evolves until the reading ends, and the input is
dropped; then it closes what is still open. -/
theorem parse_evolves (handlers : Handlers) (origin : Origin) (content : String) (m : Machine) :
    ∃ ended closed : Machine,
      Machine.Evolves { m with handlers, expansions := 0, history := [] } ended ∧
      Machine.Evolves { ended with input := {} } closed ∧ closed.scopes.groups = [] ∧
      closed.input = {} ∧
      (parse handlers origin content m).2 =
        Machine.emit { closed with expansionDepth := 0, fullExpansions := 0 } .endParse := by
  have hdocument := evolves_document handlers origin content
    { m with handlers, expansions := 0, history := [] }
  obtain ⟨closed, hclosed, hgroups, hinput, hunwind⟩ := unwind_evolves
    (document handlers origin content { m with handlers, expansions := 0, history := [] }).2
  refine ⟨_, closed, hdocument, hclosed, hgroups, hinput, ?_⟩
  rw [← hunwind]
  rfl

end Session

namespace Machine

/-- The second machine is the first one after a document has been read, and its history is that of the
reading. -/
structure Settles (m after : Machine) : Prop where
  /-- At every point of the reading all parts that are subject to grouping have the same number of groups
  open, and the openings and closings so far are properly nested, with equal kinds. -/
  orderly : ∀ past, past <:+ after.history → m.scopes.Orderly past
  /-- The history is that of what is subject to grouping. -/
  scopes : after.scopes = m.scopes.replay after.history
  /-- The events report the openings and closings of the history, and no others. -/
  events : ∃ events, after.output.events = events ++ m.output.events ∧
    events.filterMap GroupMark.ofEvent? = after.history.filterMap GroupMark.ofChange?
  /-- No part has a group open any more. -/
  groups : after.scopes.groups = []
  settings : after.scopes.settings = []
  bindings : after.scopes.bindings.depth = 0
  store : after.scopes.store.HasDepth 0
  /-- Nothing else of the reading is left either. -/
  input : after.input = {}
  expansionDepth : after.expansionDepth = 0
  fullExpansions : after.fullExpansions = 0
  /-- Commands and variables have the values of the last assignments that were global or made while no
  group was open. -/
  environment : after.scopes.environment =
    (Scopes.lasting after.history).foldr (fun c e => e.apply c) m.scopes.environment

end Machine

/-- Every machine that a host can bring about has all parts that are subject to grouping in step. -/
theorem Machine.Reachable.even {m : Machine} (h : m.Reachable) : m.scopes.Even := by
  induction h with
  | standard => exact even_standard
  | configure _ _ _ _ _ _ _ _ ih => exact ih
  | evolve _ he ih => exact he.even ih
  | @parse m h handlers origin content ih =>
    obtain ⟨ended, closed, hended, hclosed, -, -, hafter⟩ :=
      Session.parse_evolves handlers origin content m
    rw [hafter]
    exact hclosed.even (hended.even ih)

namespace Session

/-- **Reading a document leaves no trace of its groups.** If no group is open before a document is read,
then however the reading ends, its groups have been properly nested and all parts in step at every
point, and afterwards everything is closed and has the value of the last assignment that was global or
made outside all groups. -/
theorem parse_settles {m : Machine} (hm : m.Reachable) (hg : m.scopes.groups = [])
    (handlers : Handlers) (origin : Origin) (content : String) :
    m.Settles (parse handlers origin content m).2 := by
  obtain ⟨ended, closed, hended, hclosed, hgroups, hinput, hafter⟩ :=
    parse_evolves handlers origin content m
  -- the reading and the closing of what is left open are tracked, and the last event tells of no group
  have htracks : Machine.Tracks { m with handlers, expansions := 0, history := [] }
      (parse handlers origin content m).2 := by
    rw [hafter]
    refine (hended.tracks.trans (.of_eq rfl rfl rfl)).trans (hclosed.tracks.trans ?_)
    exact .trans (.of_eq rfl rfl rfl) (.emit _ (by simp [Event.IsPlain]))
  obtain ⟨later, events, hcourse, hhistory, hscopes, hevents, hmarks⟩ := htracks
  obtain rfl : (parse handlers origin content m).2.history = later := by
    rw [hhistory, List.append_nil]
  have hnone : (parse handlers origin content m).2.scopes.groups = [] := by
    rw [hafter]
    exact hgroups
  -- no group is listed any more, and every part has as many open as are listed
  have heven := (hcourse.orderly hm.even (List.suffix_refl _)).even
  rw [← hscopes] at heven
  obtain ⟨hsettings, hbindings, hstore⟩ := heven
  rw [hnone, List.length_nil] at hsettings hbindings hstore
  exact {
    orderly := fun past hp => hcourse.orderly hm.even hp
    scopes := hscopes
    events := ⟨events, hevents, hmarks⟩
    groups := hnone
    settings := List.length_eq_zero_iff.1 hsettings
    bindings := hbindings
    store := hstore
    input := by
      rw [hafter]
      exact hinput
    expansionDepth := by
      rw [hafter]
      rfl
    fullExpansions := by
      rw [hafter]
      rfl
    environment := by
      have hbottom := hcourse.bottom_layers hm.even hg
      rw [← hscopes, Layers.bottom, (Scopes.layers_outer_eq_nil_iff _).2 hnone] at hbottom
      exact hbottom }

/-- Reading a document with the standard machine that ends inside two groups. -/
theorem standard_settles : Machine.standard.Settles
    (parse .writing (.text "groups") "\x7b\\begingroup text" Machine.standard).2 :=
  parse_settles .standard rfl _ _ _

end Session

end Gullet
