import Gullet.Proofs.Unfolding.Execution
import Gullet.Proofs.Unfolding.Keeping

/-!
# How a machine evolves

Whatever an action does is made of a few elementary acts: to read a token, to put tokens in front of
the input, to change what is subject to grouping, to give something out, to enter and leave a region,
and some others. Here they are listed once, as the least preorder that allows them, so that execution
keeps to it. What holds of every run is then shown by one induction over the acts.
-/

namespace Gullet

namespace Machine

/-- What reading tokens as they stand in the input, and nothing else, can lead to. -/
inductive Reads : Machine → Machine → Prop where
  | refl (m : Machine) : Reads m m
  | trans {m m' m'' : Machine} (h : Reads m m') (h' : Reads m' m'') : Reads m m''
  | read (m : Machine) : Reads m { m with
      input := ⟨(Input.read m.codeOf m.config.retainComments true m.input.sources).sources⟩ }
  | skip (m : Machine) (c : Comment) : Reads m (m.emit (.skipping c))

/-- What actions can lead to. -/
inductive Evolves : Machine → Machine → Prop where
  | refl (m : Machine) : Evolves m m
  | trans {m m' m'' : Machine} (h : Evolves m m') (h' : Evolves m' m'') : Evolves m m''
  /-- Reading. -/
  | reads {m m' : Machine} (h : Reads m m') : Evolves m m'
  /-- Putting tokens in front of the input. -/
  | push (m : Machine) (ts : List Token) : Evolves m { m with input := m.input.pushAll ts }
  /-- Giving out an event. -/
  | emit (m : Machine) {e : Event} (he : e.IsPlain) : Evolves m (m.emit e)
  /-- Giving out something else. -/
  | put (m : Machine) (output : Output) (h : output.events = m.output.events) :
      Evolves m { m with output }
  /-- Assigning something, or changing the settings in effect. -/
  | change (m : Machine) {c : Scopes.Change} (hc : c.IsPlain) : Evolves m (m.change c)
  /-- Opening a group. -/
  | openGroup (m : Machine) (g : Group) : Evolves m ((m.change (.opened g)).emit (.beginGroup g))
  /-- Closing the innermost group. -/
  | closeGroup (m : Machine) {g closed : Group} {outer : List Group}
      (hg : m.scopes.groups = g :: outer) (hk : closed.kind = g.kind) :
      Evolves m ((m.change (.closed closed)).emit (.endGroup closed))
  /-- Opening a branch of a conditional. -/
  | openBranch (m : Machine) (b : Branch) : Evolves m { m with branches := b :: m.branches }
  /-- Closing the innermost branch of a conditional. -/
  | closeBranch (m : Machine) : Evolves m { m with branches := m.branches.tail }
  /-- Setting the prefixes that wait. -/
  | hold (m : Machine) (prefixes : Prefixes) : Evolves m { m with prefixes }
  /-- Counting an expansion. -/
  | count (m : Machine) : Evolves m { m with expansions := m.expansions + 1 }
  /-- Opening a text on top of the input. -/
  | openSource (m : Machine) (origin : Origin) (content : String) :
      Evolves m (Run.openSource origin content m).2
  /-- Leaving the current file. -/
  | endInput (m : Machine) : Evolves m m.leaveFile
  /-- Choosing what happens to characters. -/
  | handle (m : Machine) (handlers : Handlers) : Evolves m { m with handlers }
  /-- Reading a list as a region. -/
  | region {m m' : Machine} (l : TokenList)
      (h : Evolves { m with
        input := m.input.enter (.ofList l), expansionDepth := m.expansionDepth + 1 } m') :
      Evolves m { (Run.closeAbove m.input.sources.length m').2 with
        expansionDepth := m'.expansionDepth - 1 }
  /-- Going one level deeper. -/
  | deeper {m m' : Machine} (h : Evolves { m with expansionDepth := m.expansionDepth + 1 } m') :
      Evolves m { m' with expansionDepth := m'.expansionDepth - 1 }
  /-- Leaving shielded macros alone. -/
  | shielding {m m' : Machine} (h : Evolves { m with fullExpansions := m.fullExpansions + 1 } m') :
      Evolves m { m' with fullExpansions := m'.fullExpansions - 1 }
  /-- Reading with the categories of verbatim text. -/
  | verbatim {m m' : Machine} (h : Reads (m.change .verbatim) m') :
      Evolves m (m'.change (.restored m.scopes.store.catCodes))

instance : Reading Reads where
  refl := .refl
  trans _ _ _ := .trans
  read := .read
  skip := .skip

instance : Unfolding Evolves where
  refl := .refl
  trans _ _ _ := .trans
  read m := .reads (.read m)
  skip m c := .reads (.skip m c)
  push := .push
  announce m path := .emit m (by simp [Event.IsPlain])
  put := .put
  name m _ _ := .change m trivial
  openBranch := .openBranch
  closeBranch := .closeBranch
  count := .count
  openSource := .openSource
  endInput := .endInput
  region := .region
  deeper := .deeper
  shielding := .shielding

end Machine

/-- The action leads, however it ends, to a machine that the given one can evolve to. -/
abbrev Run.Evolves {α : Type} (a : Run α) : Prop := a.Keeps Machine.Evolves

namespace Run

theorem evolves_endGroup (kind : GroupKind) (closer : Token) : (endGroup kind closer).Evolves := by
  intro m
  rcases endGroup_eval kind closer m with ⟨⟨f, hf⟩, -⟩ | ⟨g, outer, hg, -, h⟩
  · rw [hf]
    exact .refl m
  · rw [h]
    exact .closeGroup m hg rfl

/-- Verbatim text is read without anything else being done. -/
theorem reads_verbatim (t : Token) : (Typesetting.verbatim t).Keeps Machine.Reads := by
  have hnext (during : Activity) : (Stream.raw.nextOr during).Keeps Machine.Reads := by
    refine keeps_raw.bind fun r => ?_
    grind
  refine (hnext _).bind fun first => ?_
  split
  · exact keeps_fail _
  · refine Keeps.loop (fun sofar => (hnext _).bind fun next => ?_) _
    grind

instance : Enacting (Keeping Machine.Evolves) where
  emit he _ := keeps_modify fun m => .emit m he
  put _ hf := keeps_modify fun m => .put m _ (hf _)
  change hc _ := keeps_modify fun m => .change m hc
  bindToken _ _ _ := keeps_get.bind fun _ => keeps_modify fun m => .change m trivial
  beginGroup _ _ := fun m => .openGroup m _
  endGroup := evolves_endGroup
  spend _ _ := keeps_modify fun m => .hold m _
  handle handlers := keeps_modify fun m => .handle m handlers
  verbatim t := fun _ => .verbatim (reads_verbatim t _)

instance : Assigning (Keeping Machine.Evolves) where
  write _ _ := keeps_modify fun m => .change m trivial

instance : Writing (Keeping Machine.Evolves) where
  write _ _ := keeps_modify fun m => .emit m (by simp [Event.IsPlain])

theorem evolves_modifier (kind : PrefixKind) (t : Token) : (Assignment.modifier kind t).Evolves :=
  respects_prefixModifier (P := Keeping Machine.Evolves) kind t fun _ =>
    keeps_modify fun m => .hold m _

end Run

end Gullet
