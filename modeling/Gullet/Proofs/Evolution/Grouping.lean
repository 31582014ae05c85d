import Gullet.Proofs.Evolution.Acts
import Gullet.Proofs.Scopes.History

/-!
# How evolution changes what is subject to grouping

Whatever a machine evolves to, its history says how what is subject to grouping came about, and its
events say which groups were opened and closed, and so which are open.
-/

namespace Gullet

namespace Event

/-- An event that says nothing about groups leaves no mark. -/
theorem IsPlain.mark {e : Event} (he : e.IsPlain) : GroupMark.ofEvent? e = none := by
  cases e with
  | beginGroup g => exact absurd rfl (he g).1
  | endGroup g => exact absurd rfl (he g).2
  | _ => rfl

/-- The groups that are open after events, which are listed latest first. -/
def openGroups (groups : List Group) : List Event → List Group
  | [] => groups
  | .beginGroup g :: past => g :: openGroups groups past
  | .endGroup _ :: past => (openGroups groups past).tail
  | _ :: past => openGroups groups past

theorem openGroups_append (groups : List Group) (later earlier : List Event) :
    openGroups groups (later ++ earlier) = openGroups (openGroups groups earlier) later := by
  induction later with
  | nil => rfl
  | cons e later ih => cases e <;> simp [openGroups, ih]

theorem openGroups_of_marks_nil {groups : List Group} {events : List Event}
    (h : events.filterMap GroupMark.ofEvent? = []) : openGroups groups events = groups := by
  induction events with
  | nil => rfl
  | cons e events ih =>
    cases e with
    | beginGroup g => cases h
    | endGroup g => cases h
    | _ => exact ih h

end Event

namespace Machine

/-! ### Histories -/

/-- The history of the second machine goes on from that of the first, and accounts for everything that
has happened in between to what is subject to grouping. -/
def Tracks (m m' : Machine) : Prop :=
  ∃ later events, m.scopes.Course later ∧ m'.history = later ++ m.history ∧
    m'.scopes = m.scopes.replay later ∧ m'.output.events = events ++ m.output.events ∧
    events.filterMap GroupMark.ofEvent? = later.filterMap GroupMark.ofChange?

variable {m m' m'' : Machine}

namespace Tracks

theorem refl (m : Machine) : m.Tracks m := ⟨[], [], .nil, rfl, rfl, rfl, rfl⟩

theorem trans (h : m.Tracks m') (h' : m'.Tracks m'') : m.Tracks m'' := by
  obtain ⟨later, events, hc, hh, hs, he, hm⟩ := h
  obtain ⟨later', events', hc', hh', hs', he', hm'⟩ := h'
  rw [hs] at hc' hs'
  refine ⟨later' ++ later, events' ++ events, hc.append hc', ?_, ?_, ?_, ?_⟩
  · rw [hh', hh, List.append_assoc]
  · rw [hs', Scopes.replay_append]
  · rw [he', he, List.append_assoc]
  · rw [List.filterMap_append, List.filterMap_append, hm, hm']

/-- An act that leaves scopes, history and events alone. -/
theorem of_eq (hs : m'.scopes = m.scopes) (hh : m'.history = m.history)
    (he : m'.output.events = m.output.events) : m.Tracks m' :=
  ⟨[], [], .nil, hh, hs, he, rfl⟩

theorem emit (m : Machine) {e : Event} (he : e.IsPlain) : m.Tracks (m.emit e) := by
  refine ⟨[], [e], .nil, rfl, rfl, rfl, ?_⟩
  rw [List.filterMap_cons_none he.mark]
  rfl

theorem openGroup (m : Machine) (g : Group) :
    m.Tracks ((m.change (.opened g)).emit (.beginGroup g)) :=
  ⟨[.opened g], [.beginGroup g], .opened .nil g, rfl, rfl, rfl, rfl⟩

theorem closeGroup (m : Machine) {g closed : Group} {outer : List Group}
    (hg : m.scopes.groups = g :: outer) (hk : closed.kind = g.kind) :
    m.Tracks ((m.change (.closed closed)).emit (.endGroup closed)) :=
  ⟨[.closed closed], [.endGroup closed], .closed .nil hg hk, rfl, rfl, rfl, rfl⟩

end Tracks

/-- Reading changes nothing that is subject to grouping. -/
theorem Reads.unchanged (h : m.Reads m') :
    m'.scopes = m.scopes ∧ m'.history = m.history ∧
      ∃ events, m'.output.events = events ++ m.output.events ∧
        events.filterMap GroupMark.ofEvent? = [] := by
  induction h with
  | refl m => exact ⟨rfl, rfl, [], rfl, rfl⟩
  | trans h h' ih ih' =>
    obtain ⟨hs, hh, events, he, hm⟩ := ih
    obtain ⟨hs', hh', events', he', hm'⟩ := ih'
    refine ⟨hs'.trans hs, hh'.trans hh, events' ++ events, ?_, ?_⟩
    · rw [he', he, List.append_assoc]
    · rw [List.filterMap_append, hm, hm', List.append_nil]
  | read m => exact ⟨rfl, rfl, [], rfl, rfl⟩
  | skip m c => exact ⟨rfl, rfl, [.skipping c], rfl, rfl⟩

/-- **The history accounts for every evolution.** -/
theorem Evolves.tracks (h : m.Evolves m') : m.Tracks m' := by
  induction h with
  | refl m => exact .refl m
  | trans h h' ih ih' => exact ih.trans ih'
  | reads h =>
    obtain ⟨hs, hh, events, he, hm⟩ := h.unchanged
    exact ⟨[], events, .nil, hh, hs, he, hm⟩
  | emit m he => exact .emit m he
  | put m output h => exact .of_eq rfl rfl h
  | @change m c hc =>
    have hm : [c].filterMap GroupMark.ofChange? = [] := List.filterMap_cons_none hc.mark
    exact ⟨[c], [], .plain .nil hc, rfl, rfl, rfl, hm.symm⟩
  | openGroup m g => exact .openGroup m g
  | closeGroup m hg hk => exact .closeGroup m hg hk
  | region l h ih => exact ih
  | deeper h ih => exact ih
  | shielding h ih => exact ih
  | @verbatim m m' h =>
    obtain ⟨hs, hh, events, he, hm⟩ := h.unchanged
    refine ⟨[.restored m.scopes.store.catCodes, .verbatim], events, .verbatim .nil, ?_, ?_, he, hm⟩
    · exact congrArg (List.cons _) hh
    · exact congrArg (fun s : Scopes => s.apply (.restored m.scopes.store.catCodes)) hs
  | openSource m origin content => exact .of_eq rfl rfl rfl
  | _ => exact .of_eq rfl rfl rfl

/-- Evolution keeps the parts that are subject to grouping in step. -/
theorem Evolves.even (h : m.Evolves m') (he : m.scopes.Even) : m'.scopes.Even := by
  obtain ⟨later, _, hc, -, hs, -⟩ := h.tracks
  rw [hs]
  exact (hc.orderly he (List.suffix_refl _)).even

/-! ### What the events say about groups -/

/-- The second machine has given out more than the first one, and what it has given out says which groups
it has open. -/
def Reports (m m' : Machine) : Prop :=
  ∃ events, m'.output.events = events ++ m.output.events ∧
    m'.scopes.groups = Event.openGroups m.scopes.groups events

namespace Reports

theorem refl (m : Machine) : m.Reports m := ⟨[], rfl, rfl⟩

theorem trans (h : m.Reports m') (h' : m'.Reports m'') : m.Reports m'' := by
  obtain ⟨events, he, hg⟩ := h
  obtain ⟨events', he', hg'⟩ := h'
  refine ⟨events' ++ events, ?_, ?_⟩
  · rw [he', he, List.append_assoc]
  · rw [hg', hg, Event.openGroups_append]

/-- An act that leaves groups and events alone. -/
theorem of_eq (hg : m'.scopes.groups = m.scopes.groups) (he : m'.output.events = m.output.events) :
    m.Reports m' := ⟨[], he, hg⟩

/-- An act that leaves groups alone and gives out nothing about groups. -/
theorem of_marks_nil {events : List Event} (hg : m'.scopes.groups = m.scopes.groups)
    (he : m'.output.events = events ++ m.output.events)
    (hm : events.filterMap GroupMark.ofEvent? = []) : m.Reports m' :=
  ⟨events, he, hg.trans (Event.openGroups_of_marks_nil hm).symm⟩

end Reports

/-- **Events report every group.** -/
theorem Evolves.reports (h : m.Evolves m') : m.Reports m' := by
  induction h with
  | refl m => exact .refl m
  | trans h h' ih ih' => exact ih.trans ih'
  | reads h =>
    obtain ⟨hs, -, events, he, hm⟩ := h.unchanged
    exact .of_marks_nil (congrArg Scopes.groups hs) he hm
  | @emit m e he =>
    have hm : [e].filterMap GroupMark.ofEvent? = [] := List.filterMap_cons_none he.mark
    exact .of_marks_nil rfl rfl hm
  | put m output h => exact .of_eq rfl h
  | @change m c hc =>
    exact .of_eq (hc.groups_apply m.scopes) rfl
  | openGroup m g => exact ⟨[.beginGroup g], rfl, rfl⟩
  | closeGroup m hg hk => exact ⟨[.endGroup _], rfl, rfl⟩
  | region l h ih => exact ih
  | deeper h ih => exact ih
  | shielding h ih => exact ih
  | @verbatim m m' h =>
    obtain ⟨hs, -, events, he, hm⟩ := h.unchanged
    have hg : m'.scopes.groups = m.scopes.groups := (congrArg Scopes.groups hs).trans rfl
    exact .of_marks_nil hg he hm
  | _ => exact .of_eq rfl rfl

end Machine

end Gullet
