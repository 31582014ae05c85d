import Gullet.Proofs.Taking.Rules

/-!
# The acts from which taking is made up

The acts of the machine that leave the input alone; reading a token; and the brackets that an action can
be put in. A region takes nothing from the input below it.
-/

namespace Gullet

variable {levels : Nat}

namespace Run

variable {α : Type} {a : Run α} {post : α → List Token → Prop}

/-! ### Acts that leave the input alone -/

theorem stays_emit (e : Event) : (emit e).Stays := stays_modify fun _ => ⟨rfl, rfl, rfl, rfl, rfl⟩

theorem stays_writeLog (s : String) : (writeLog s).Stays :=
  stays_modify fun _ => ⟨rfl, rfl, rfl, rfl, rfl⟩

theorem stays_writeTerminal (s : String) : (writeTerminal s).Stays :=
  stays_modify fun _ => ⟨rfl, rfl, rfl, rfl, rfl⟩

theorem stays_recoverable (f : Fault) : (recoverable f).Stays := by
  refine .get_bind fun m => ?_
  cases m.policy.recovery with
  | report => exact (stays_emit _).bind fun _ => stays_writeLog _
  | refuse => exact stays_fail f
  | tally => exact stays_modify fun _ => ⟨rfl, rfl, rfl, rfl, rfl⟩

theorem stays_lookup (ref : CommandRef) : (lookup ref).Stays := .get_bind fun _ => stays_pure _

theorem stays_change (c : Scopes.Change) : (change c).Stays :=
  stays_modify fun _ => ⟨rfl, rfl, rfl, rfl, rfl⟩

theorem stays_bindRef (scope : Scope) (ref : CommandRef) (command : Command) :
    (bindRef scope ref command).Stays := stays_change _

theorem stays_bindToken (scope : Scope) (ref : CommandRef) (t : Token) :
    (bindToken scope ref t).Stays := .get_bind fun _ => stays_bindRef _ _ _

theorem stays_write (scope : Scope) (w : Store.Write) : (write scope w).Stays := stays_change _

theorem stays_mapSettings (f : Settings → Settings) : (mapSettings f).Stays :=
  .get_bind fun _ => stays_change _

theorem stays_takeScope : takeScope.Stays := by
  refine .get_bind fun m => Stays.bind (stays_modify fun _ => ?_) fun _ => stays_pure _
  exact ⟨rfl, rfl, rfl, rfl, rfl⟩

theorem stays_beginGroup (kind : GroupKind) (opener : Token) : (beginGroup kind opener).Stays :=
  (stays_change _).bind fun _ => stays_emit _

theorem stays_endGroup (kind : GroupKind) (closer : Token) : (endGroup kind closer).Stays := by
  intro m
  rcases endGroup_eval kind closer m with ⟨⟨f, hf⟩, -⟩ | ⟨g, outer, -, -, h⟩
  · unfold Ensures
    rw [hf]
    exact stays_fail (α := Unit) f m
  · unfold Ensures
    rw [h]
    exact ⟨rfl, rfl, rfl, rfl, rfl⟩

theorem stays_undefinedFault (t : Token) : (undefinedFault t).Stays := by
  unfold undefinedFault
  split
  · exact .get_bind fun _ => stays_pure _
  · exact stays_pure _

/-! ### Regions -/

end Run

namespace Machine

variable {m m' : Machine} {l : TokenList} {ts : List Token}

theorem Ready.inRegion (h : m.Ready levels) (hd : m.expansionDepth < m.config.maxExpansionDepth)
    (l : TokenList) : (m.inRegion l).Ready levels where
  accounted := Input.accounted_region h.accounted l
  within := hd
  enough := Nat.lt_of_lt_of_le h.enough (Nat.le_succ _)

/-- The sources below a region are those that its reader cannot reach. -/
theorem sources_leaveRegion (h : Input.beyond m'.input.sources = m.input.sources) :
    (m.leaveRegion m').input.sources = m.input.sources := by
  have hsuffix := Input.beyond_suffix m'.input.sources
  rw [h] at hsuffix
  have hdrop := List.suffix_iff_eq_drop.1 hsuffix
  simpa [leaveRegion, Run.closeAbove, List.splitAt_eq] using hdrop.symm

/-- Whatever is taken from a region, nothing is taken from the input below it. -/
theorem Took.leaveRegion (h : (m.inRegion l).Took ts m') : m.Took [] (m.leaveRegion m') := by
  refine ⟨h.continues.leaveRegion, ?_⟩
  rcases h.input with hlt | ⟨heq, htook⟩
  · exact .inl hlt
  · refine .inr ⟨heq, ?_⟩
    rw [sources_leaveRegion htook.beyond]
    exact .refl _

/-- A region that is read to its end without an expansion is taken as it is. -/
theorem Took.whole_region (h : (m.inRegion l).Took ts m') (hend : m'.AtEnd)
    (hleft : m'.expansionsLeft = m.expansionsLeft) : ts = l.tokens := by
  rcases h.input with hlt | ⟨-, htook⟩
  · exact absurd hleft (Nat.ne_of_lt hlt)
  · exact htook.whole_region hend

end Machine

namespace Run

variable {α : Type} {a : Run α} {A : α → List Token → Prop}

/-- What an action ensures that reads a list as a region. -/
theorem Ensures.region {l : TokenList} {m : Machine} {post : α → Machine → Prop}
    (ha : m.expansionDepth < m.config.maxExpansionDepth →
      a.Ensures (m.inRegion l) fun x m' => post x (m.leaveRegion m')) :
    (region l a).Ensures m post := by
  unfold Ensures
  by_cases hd : m.expansionDepth < m.config.maxExpansionDepth
  · rw [region_of_lt hd]
    cases hr : a (m.inRegion l) with
    | mk result m' =>
      cases result with
      | ok x => exact (ha hd).of_ok hr
      | error halt => exact (ha hd).of_error hr
  · rw [region_of_le (Nat.le_of_not_lt hd)]
    exact fun h => nomatch h

theorem Consumes.region (l : TokenList) (ha : a.Consumes levels A) :
    (Run.region l a).Consumes levels fun _ ts => ts = [] := by
  intro m hready
  refine Ensures.region fun hd => (ha _ (hready.inRegion hd l)).mono ?_
  rintro x m' ⟨ts, -, htook⟩
  exact ⟨[], rfl, htook.leaveRegion⟩

/-! ### Other brackets -/

/-- While shielded macros are left alone, everything else is as before. -/
theorem Ensures.shielding {m : Machine} {post : α → Machine → Prop}
    (ha : a.Ensures { m with fullExpansions := m.fullExpansions + 1 } fun x m' =>
      post x { m' with fullExpansions := m'.fullExpansions - 1 }) :
    (shielding a).Ensures m post := by
  unfold Ensures Run.shielding
  cases hr : a { m with fullExpansions := m.fullExpansions + 1 } with
  | mk result m' =>
    cases result with
    | ok x => exact ha.of_ok hr
    | error halt => exact ha.of_error hr

theorem Ensures.withVerbatimCodes {m : Machine} {post : α → Machine → Prop}
    (ha : a.Ensures (m.change .verbatim) fun x m' =>
      post x (m'.change (.restored m.scopes.store.catCodes))) :
    (Typesetting.withVerbatimCodes a).Ensures m post := by
  unfold Ensures Typesetting.withVerbatimCodes
  cases hr : a (m.change .verbatim) with
  | mk result m' =>
    cases result with
    | ok x => exact ha.of_ok hr
    | error halt => exact ha.of_error hr

theorem Spends.withVerbatimCodes (ha : a.Spends levels) :
    (Typesetting.withVerbatimCodes a).Spends levels := by
  intro m hready
  have hin : m.Took [] (m.change .verbatim) := Machine.Resembles.took ⟨rfl, rfl, rfl, rfl, rfl⟩
  refine Ensures.withVerbatimCodes ((ha _ (hready.of_continues hin.continues)).mono ?_)
  rintro x m' ⟨ts, -, htook⟩
  have hout : m'.Took [] (m'.change (.restored m.scopes.store.catCodes)) :=
    Machine.Resembles.took ⟨rfl, rfl, rfl, rfl, rfl⟩
  exact ⟨_, trivial, (hin.trans htook).trans hout⟩

/-- One level deeper, one level of expansions fewer is needed. -/
theorem Finishes.deeper (t : Token) (ha : a.Finishes levels) :
    (Expansion.deeper t a).Finishes (levels + 1) := by
  intro m hready
  unfold Ensures Expansion.deeper
  dsimp only
  by_cases hd : m.config.maxExpansionDepth ≤ m.expansionDepth
  · rw [if_pos hd]
    exact fun h => nomatch h
  · rw [if_neg hd]
    -- the depth goes up as the levels go down, so that there are still enough of them
    have hready' : Machine.Ready levels { m with expansionDepth := m.expansionDepth + 1 } := by
      refine ⟨hready.accounted, Nat.lt_of_not_le hd, ?_⟩
      have henough := hready.enough
      dsimp only
      omega
    have hinner := ha _ hready'
    cases hr : a { m with expansionDepth := m.expansionDepth + 1 } with
    | mk result m' =>
      cases result with
      | ok x =>
        have hc := hinner.of_ok hr
        exact ⟨hc.config, congrArg (· - 1) hc.expansionDepth, hc.fullExpansions, hc.expansions,
          hc.accounted⟩
      | error halt => exact hinner.of_error hr

end Run

/-! ### Reading a token -/

/-- A failure of the tokeniser does not use up the steps. -/
theorem ensures_refuse (e : LexError) {m : Machine} {post : Option Token → Machine → Prop} :
    (Stream.refuse e).Ensures m post :=
  Run.Ensures.get_bind (Run.ensures_throw fun h => by cases e <;> cases h)

/-- **The raw stream takes the token that it gives.** -/
theorem takes_raw : Stream.raw.Takes levels := by
  intro m hready
  have hgives := Input.gives_read m.codeOf m.config.retainComments true hready.accounted
  refine Run.Ensures.get_bind ?_
  split
  · exact Run.ensures_fail _
  · refine Run.Ensures.bind (A := fun _ m' => m' = { m with
      input := ⟨(Input.read m.codeOf m.config.retainComments true m.input.sources).sources⟩ })
      (Run.ensures_modify rfl) ?_
    rintro _ m' rfl
    refine Run.Ensures.bind (Run.Stays.forM (fun c => Run.stays_emit _) _) ?_
    intro _ m' hm'
    have hcontinues : m.Continues m' := by
      refine Machine.Continues.trans (.of_input _ (Input.accounted_read _ _ _)) hm'.took.continues
    have hleft : m'.expansionsLeft = m.expansionsLeft := by
      unfold Machine.expansionsLeft
      rw [hm'.config, hm'.expansions]
    split
    case h_1 t? hr =>
      refine Run.ensures_pure ⟨⟨hcontinues, .inr ⟨hleft, ?_⟩⟩, ?_⟩
      · rw [hm'.input]
        exact hgives.took t? hr
      · rintro rfl
        unfold Machine.AtEnd
        rw [hm'.input]
        exact hgives.none hr
    case h_2 e hr => exact ensures_refuse e

end Gullet
