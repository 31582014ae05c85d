import Gullet.Proofs.Scopes.Environments

/-!
# The history of what is subject to grouping

A machine records every change of what is subject to grouping, latest first. Here it is described which
histories are possible, and what follows of a history alone: that the parts stay in step at every point
of it, that its groups are properly nested, and what is left when all of them are closed.
-/

namespace Gullet

namespace Scopes

/-- Makes changes, which are listed latest first. -/
def replay (s : Scopes) (changes : List Change) : Scopes := changes.foldr (fun c s => s.apply c) s

theorem replay_cons (s : Scopes) (c : Change) (past : List Change) :
    s.replay (c :: past) = (s.replay past).apply c := rfl

theorem replay_append (s : Scopes) (later earlier : List Change) :
    s.replay (later ++ earlier) = (s.replay earlier).replay later := by
  simp [replay, List.foldr_append]

/-- The histories that are possible from given scopes on. A group is closed as the kind it was opened
as, and the categories of verbatim text are taken back as soon as the text has been read. -/
inductive Course (s : Scopes) : List Change → Prop where
  | nil : Course s []
  | plain {past : List Change} {c : Change} (h : Course s past) (hc : c.IsPlain) :
      Course s (c :: past)
  | opened {past : List Change} (h : Course s past) (g : Group) : Course s (.opened g :: past)
  | closed {past : List Change} {g closed : Group} {outer : List Group} (h : Course s past)
      (hg : (s.replay past).groups = g :: outer) (hk : closed.kind = g.kind) :
      Course s (.closed closed :: past)
  | verbatim {past : List Change} (h : Course s past) :
      Course s (.restored (s.replay past).store.catCodes :: .verbatim :: past)

theorem Course.append {s : Scopes} {later earlier : List Change} (h : s.Course earlier)
    (h' : (s.replay earlier).Course later) : s.Course (later ++ earlier) := by
  induction h' with
  | nil => exact h
  | plain _ hc ih => exact .plain ih hc
  | opened _ g ih => exact .opened ih g
  | closed _ hg hk ih =>
    rw [← replay_append] at hg
    exact .closed ih hg hk
  | verbatim _ ih =>
    rw [← replay_append]
    exact .verbatim ih

/-! ### Verbatim text -/

/-- The categories of verbatim text concern nothing but categories. -/
theorem verbatimStore_eq (s : Store) :
    verbatimStore s = { s with catCodes := (verbatimStore s).catCodes } := by
  unfold verbatimStore
  generalize List.range 128 = codePoints
  induction codePoints generalizing s with
  | nil => rfl
  | cons c rest ih =>
    rw [List.foldl_cons, ih]
    rfl

/-- When the categories are taken back, everything is as it was before the verbatim text. -/
theorem apply_restored_verbatim (s : Scopes) :
    (s.apply .verbatim).apply (.restored s.store.catCodes) = s := by
  show { s with store := { verbatimStore s.store with catCodes := s.store.catCodes } } = s
  rw [verbatimStore_eq s.store]

end Scopes

/-! ### Marks of groups -/

/-- The opening or closing of a group. -/
inductive GroupMark where
  | opened (kind : GroupKind)
  | closed (kind : GroupKind)

namespace GroupMark

/-- The mark that a change leaves. -/
def ofChange? : Scopes.Change → Option GroupMark
  | .opened g => some (opened g.kind)
  | .closed g => some (closed g.kind)
  | _ => none

/-- The mark that an event leaves. -/
def ofEvent? : Event → Option GroupMark
  | .beginGroup g => some (opened g.kind)
  | .endGroup g => some (closed g.kind)
  | _ => none

/-- The kinds of the open groups, innermost first, after marks that are listed latest first. There are
none if the marks are not properly nested: if a group is closed that is not open, or as another kind. -/
def openKinds? (kinds : List GroupKind) : List GroupMark → Option (List GroupKind)
  | [] => some kinds
  | opened kind :: past => (openKinds? kinds past).map (kind :: ·)
  | closed kind :: past =>
    match openKinds? kinds past with
    | some (innermost :: outer) => if innermost = kind then some outer else none
    | _ => none

end GroupMark

namespace Scopes

@[simp] theorem groups_mapSettings (s : Scopes) (f : Settings → Settings) :
    (s.mapSettings f).groups = s.groups := by
  unfold mapSettings
  split <;> rfl

namespace Change.IsPlain

variable {c : Change}

theorem fits (hc : c.IsPlain) (s : Scopes) : c.Fits s := by cases c <;> trivial

theorem mark (hc : c.IsPlain) : GroupMark.ofChange? c = none := by
  cases c <;> first | rfl | cases hc

/-- A plain change leaves the groups alone. -/
theorem groups_apply (hc : c.IsPlain) (s : Scopes) : (s.apply c).groups = s.groups := by
  cases c with
  | bound => rfl
  | written => rfl
  | restyled settings => exact groups_mapSettings s _
  | _ => cases hc

end Change.IsPlain

/-! ### At every point of a history -/

variable {s : Scopes} {past changes : List Change}

/-- What holds at every point of a history. -/
structure Orderly (s : Scopes) (past : List Change) : Prop where
  /-- Every part has as many groups open as are listed. -/
  even : (s.replay past).Even
  /-- The openings and closings so far are properly nested. -/
  nested : GroupMark.openKinds? (s.groups.map Group.kind) (past.filterMap GroupMark.ofChange?) =
    some ((s.replay past).groups.map Group.kind)

namespace Orderly

/-- A change that leaves the groups alone leaves a history orderly. -/
theorem cons {c : Change} (h : s.Orderly past) (hc : c.Fits (s.replay past))
    (hm : GroupMark.ofChange? c = none)
    (hg : ((s.replay past).apply c).groups = (s.replay past).groups) : s.Orderly (c :: past) where
  even := h.even.apply hc
  nested := by
    rw [List.filterMap_cons_none hm, h.nested]
    exact congrArg (fun groups => some (List.map Group.kind groups)) hg.symm

theorem opened (h : s.Orderly past) (g : Group) : s.Orderly (.opened g :: past) where
  even := h.even.openGroup g
  nested := by
    show GroupMark.openKinds? _ (.opened g.kind :: past.filterMap GroupMark.ofChange?) = _
    rw [GroupMark.openKinds?, h.nested]
    rfl

theorem closed (h : s.Orderly past) {g closed : Group} {outer : List Group}
    (hg : (s.replay past).groups = g :: outer) (hk : closed.kind = g.kind) :
    s.Orderly (.closed closed :: past) where
  even := h.even.closeGroup
  nested := by
    have hnested := h.nested
    rw [hg, List.map_cons] at hnested
    show GroupMark.openKinds? _ (.closed closed.kind :: past.filterMap GroupMark.ofChange?) = _
    rw [GroupMark.openKinds?, hnested]
    show (if g.kind = closed.kind then some (outer.map Group.kind) else none) =
      some ((s.replay past).groups.tail.map Group.kind)
    rw [if_pos hk.symm, hg, List.tail_cons]

end Orderly

/-- **At every point of a history the parts are in step and the groups are properly nested.** -/
theorem Course.orderly (hs : s.Even) (h : s.Course changes) (hp : past <:+ changes) :
    s.Orderly past := by
  induction h generalizing past with
  | nil =>
    rw [List.suffix_nil.1 hp]
    exact ⟨hs, rfl⟩
  | @plain earlier c h hc ih =>
    rcases List.suffix_cons_iff.1 hp with rfl | hp
    · exact (ih (List.suffix_refl _)).cons (hc.fits _) hc.mark (hc.groups_apply _)
    · exact ih hp
  | opened h g ih =>
    rcases List.suffix_cons_iff.1 hp with rfl | hp
    · exact (ih (List.suffix_refl _)).opened g
    · exact ih hp
  | closed h hg hk ih =>
    rcases List.suffix_cons_iff.1 hp with rfl | hp
    · exact (ih (List.suffix_refl _)).closed hg hk
    · exact ih hp
  | @verbatim earlier h ih =>
    -- the categories that are restored are those of the last orderly point, so that their depth is right
    have hlast := ih (List.suffix_refl _)
    have hverbatim := hlast.cons (c := .verbatim) trivial rfl rfl
    rcases List.suffix_cons_iff.1 hp with rfl | hp
    · exact hverbatim.cons (c := .restored _) hlast.even.store.catCodes rfl rfl
    · rcases List.suffix_cons_iff.1 hp with rfl | hp
      · exact hverbatim
      · exact ih hp

/-! ### What is left when all groups are closed -/

/-- The number of groups that changes leave open. -/
def openCount : List Change → Nat
  | [] => 0
  | .opened _ :: past => openCount past + 1
  | .closed _ :: past => openCount past - 1
  | _ :: past => openCount past

/-- The assignments that outlast every group: those that were global or made while no group was open. -/
def lasting : List Change → List Change
  | [] => []
  | c :: past =>
    if c.scope? = some .everywhere ∨ c.scope? = some .inner ∧ openCount past = 0 then
      c :: lasting past
    else lasting past

end Scopes

/-- The value from before all open groups. -/
def Layers.bottom {α : Type u} (l : Layers α) : α := l.outer.getLast?.getD l.current

namespace Layers

variable {α : Type u} {l l' : Layers α}

@[simp] theorem bottom_beginGroup (l : Layers α) : l.beginGroup.bottom = l.bottom := by
  simp [bottom, beginGroup, List.getLast?_cons]

theorem bottom_endGroup? (h : l.endGroup? = some l') : l'.bottom = l.bottom := by
  obtain ⟨current, outer⟩ := l
  cases outer with
  | nil => cases h
  | cons next outer =>
    cases h
    simp [bottom, List.getLast?_cons]

theorem bottom_assign (l : Layers α) (scope : Scope) (f : α → α) :
    (l.assign scope f).bottom =
      if scope = .everywhere ∨ l.outer = [] then f l.bottom else l.bottom := by
  obtain ⟨current, outer⟩ := l
  cases scope <;> cases outer <;> simp [assign, mapCurrent, mapAll, bottom, List.getLast?_cons]

end Layers

namespace Scopes

variable {s : Scopes} {past changes : List Change}

/-- Changing the settings leaves the environments alone. -/
theorem layers_mapSettings (s : Scopes) (f : Settings → Settings) :
    (s.mapSettings f).layers = s.layers := by
  have halike : (s.mapSettings f).Alike s := by
    unfold mapSettings
    split <;> exact ⟨.refl _, .refl _⟩
  rw [layers, layers, halike.environment, groups_mapSettings, halike.environmentsBelow]

theorem length_layers_outer (s : Scopes) : s.layers.outer.length = s.groups.length := by
  show (s.environmentsBelow s.groups.length).length = _
  generalize s.groups.length = n
  induction n generalizing s with
  | zero => rfl
  | succ n ih => rw [environmentsBelow, List.length_cons, ih]

theorem layers_outer_eq_nil_iff (s : Scopes) : s.layers.outer = [] ↔ s.groups = [] := by
  rw [← List.length_eq_zero_iff, length_layers_outer, List.length_eq_zero_iff]

/-- The number of open groups after a history. -/
theorem Course.length_groups (hg : s.groups = []) (h : s.Course changes) :
    (s.replay changes).groups.length = openCount changes := by
  induction h with
  | nil => simp [replay, hg, openCount]
  | @plain past c h hc ih =>
    rw [replay_cons, hc.groups_apply, ih]
    cases c <;> first | rfl | cases hc
  | opened h g ih => exact congrArg (· + 1) ih
  | @closed past g closed outer h hg' hk ih =>
    show (s.replay past).groups.tail.length = openCount past - 1
    rw [List.length_tail, ih]
  | verbatim h ih => exact ih

/-- **What outlasts all groups.** The environment outside all groups is made by the assignments that were
global or made while no group was open, and by no others. -/
theorem Course.bottom_layers (hs : s.Even) (hg : s.groups = []) (h : s.Course changes) :
    (s.replay changes).layers.bottom =
      (lasting changes).foldr (fun c e => e.apply c) s.environment := by
  induction h with
  | nil =>
    show s.layers.bottom = s.environment
    rw [Layers.bottom, (layers_outer_eq_nil_iff s).2 hg]
    rfl
  | @plain past c h hc ih =>
    have he := (h.orderly hs (List.suffix_refl _)).even
    have hcount : (s.replay past).layers.outer = [] ↔ openCount past = 0 := by
      rw [layers_outer_eq_nil_iff, ← List.length_eq_zero_iff, h.length_groups hg]
    -- an assignment reaches the bottom if it is global, or if there is nothing above the bottom
    have hassign (scope : Scope) (hscope : c.scope? = some scope) :
        (s.replay (c :: past)).layers.bottom =
          (lasting (c :: past)).foldr (fun c e => e.apply c) s.environment := by
      rw [replay_cons, layers_assign he hscope, Layers.bottom_assign, lasting, hscope]
      cases scope <;> by_cases hzero : openCount past = 0 <;> simp [hzero, hcount, ih]
    cases c with
    | restyled settings =>
      show ((s.replay past).mapSettings fun _ => settings).layers.bottom = _
      rw [layers_mapSettings, ih]
      rfl
    | bound scope ref command => exact hassign scope rfl
    | written scope w => exact hassign scope rfl
    | _ => cases hc
  | @opened past h g ih =>
    show ((s.replay past).openGroup g).layers.bottom = _
    rw [layers_openGroup, Layers.bottom_beginGroup, ih]
    rfl
  | @closed past g closed outer h hg' hk ih =>
    show ((s.replay past).closeGroup).layers.bottom = _
    rw [Layers.bottom_endGroup? (layers_closeGroup hg'), ih]
    rfl
  | @verbatim past h ih =>
    rw [replay_cons, replay_cons, apply_restored_verbatim, ih]
    rfl

end Scopes

end Gullet
