import Gullet.Proofs.Evolution.Continuing
import Gullet.Proofs.Run.Looping
import Gullet.Proofs.Stream.Expanding

/-!
# Full expansion

Full expansion leaves tokens that it would leave alone if it were done again, but for those that
`\noexpand` has given. To tell the two kinds apart, each token is given together with the command that it
comes from, if it was not found in the input; without this remark the tokens are those of full
expansion.
-/

namespace Gullet

/-- Whether full expansion leaves a command alone. -/
def Command.isInert : Command → Bool
  | .expansion _ => false
  | .custom mac => mac.shielded
  | _ => true

/-- A token that full expansion leaves, with the command that has given it if it was not found in the
input. -/
structure Delivery where
  token : Token
  giver : Option Token := none

namespace Stream

/-- One round of the expanded stream, with a remark on where the token comes from. -/
def tracedRound (x : Expander) (_ : Unit) : Run (Unit ⊕ Option Delivery) := do
  match ← raw with
  | none => return .inr none
  | some t =>
    match t.value with
    | .char _ _ => return .inr (some { token := t })
    | .command ref =>
      let m ← get
      if m.input.expansionEnabled && expands m (m.lookup ref) then
        match ← x t with
        | some t' => return .inr (some { token := t', giver := some t })
        | none => return .inl ()
      else return .inr (some { token := t })

/-- The expanded stream, with a remark on where each token comes from. -/
def traced (x : Expander) : Run (Option Delivery) := Run.loop (tracedRound x) ()

/-- One round of collecting what is given up to the end of the input. -/
def collectRound (x : Expander) (sofar : List Delivery) : Run (List Delivery ⊕ List Delivery) := do
  match ← traced x with
  | none => return .inr sofar.reverse
  | some d => return .inl (d :: sofar)

/-- Full expansion, with a remark on where each token comes from. -/
def expandFullyTraced (x : Expander) (ts : List Token) : Run (List Delivery) :=
  Run.shielding (Run.region { tokens := ts } (Run.loop (collectRound x) []))

end Stream

namespace Run

variable {x : Expander} {ts us : List Token} {t t' : Token} {m m' : Machine}

/-! ### The remarks change nothing -/

theorem expandedRound_eq_map (x : Expander) :
    Stream.expandedRound x () = Sum.map id (Option.map Delivery.token) <$> Stream.tracedRound x () := by
  unfold Stream.expandedRound Stream.tracedRound
  rw [map_bind]
  congr 1
  funext r
  cases r with
  | none => rfl
  | some t =>
    dsimp only
    cases t.value with
    | char category c => rfl
    | command ref =>
      dsimp only
      rw [map_bind]
      congr 1
      funext m
      split
      · rw [map_bind]
        congr 1
        funext r
        cases r <;> rfl
      · rfl

theorem expanded_eq_map (x : Expander) :
    Stream.expanded x = Option.map Delivery.token <$> Stream.traced x :=
  loop_map (g := id) (fun _ => expandedRound_eq_map x) ()

theorem drain_eq_map (x : Expander) :
    (Stream.expanded x).drain = List.map Delivery.token <$> loop (Stream.collectRound x) [] := by
  unfold Stream.drain
  refine loop_map (g := List.map Delivery.token) (fun sofar => ?_) []
  rw [expanded_eq_map]
  unfold Stream.collectRound
  rw [map_bind, bind_map_left]
  congr 1
  funext r
  cases r with
  | none => simp
  | some d => simp

theorem expandFully_eq_ok_iff :
    Stream.expandFully x ts m = (.ok us, m') ↔
      ∃ ds : List Delivery,
        Stream.expandFullyTraced x ts m = (.ok ds, m') ∧ ds.map Delivery.token = us := by
  unfold Stream.expandFully Stream.expandFullyTraced
  rw [drain_eq_map]
  constructor
  · intro h
    obtain ⟨m₁, h, hm'⟩ := shielding_eq_ok_iff.1 h
    obtain ⟨hd, m₂, h, hm₁⟩ := region_eq_ok_iff.1 h
    rw [map_eq_pure_bind] at h
    obtain ⟨ds, m₃, hds, h⟩ := exists_of_bind_eq_ok h
    cases h
    exact ⟨ds, shielding_eq_ok_iff.2 ⟨m₁, region_eq_ok_iff.2 ⟨hd, m₂, hds, hm₁⟩, hm'⟩, rfl⟩
  · rintro ⟨ds, h, rfl⟩
    obtain ⟨m₁, h, hm'⟩ := shielding_eq_ok_iff.1 h
    obtain ⟨hd, m₂, hds, hm₁⟩ := region_eq_ok_iff.1 h
    refine shielding_eq_ok_iff.2 ⟨m₁, region_eq_ok_iff.2 ⟨hd, m₂, ?_, hm₁⟩, hm'⟩
    rw [map_eval, hds]
    rfl

/-! ### What gives a token unexpanded -/

theorem quiet_eq_none {action : Run Unit} {r : Option Token}
    (h : Expansion.primitive.quiet action m = (.ok r, m')) : r = none := by
  obtain ⟨-, m₁, -, h⟩ := exists_of_bind_eq_ok h
  cases h
  rfl

/-- Only `\noexpand` gives a token. -/
theorem eq_noExpand_of_primitive {p : ExpansionPrimitive}
    (h : Expansion.primitive x t p m = (.ok (some t'), m')) : p = .noExpand := by
  cases p with
  | noExpand => rfl
  | _ => cases quiet_eq_none h

theorem lookup_eq_noExpand_of_expand (h : expand t m = (.ok (some t'), m')) :
    ∃ ref, t.value = .command ref ∧ m.lookup ref = .expansion .noExpand := by
  change Expansion.expandWithin (m.config.maxExpansionDepth + 1) t m = _ at h
  unfold Expansion.expandWithin at h
  cases hv : t.value with
  | char category c =>
    rw [hv] at h
    cases h
  | command ref =>
    rw [hv] at h
    obtain ⟨_, m₁, hcount, h⟩ := exists_of_bind_eq_ok h
    obtain ⟨-, rfl⟩ := count_eq_ok_iff.1 hcount
    rw [bind_of_ok (lookup_eval ref (m.counting 1))] at h
    have hlookup : (m.counting 1).lookup ref = m.lookup ref := rfl
    rw [hlookup] at h
    refine ⟨ref, rfl, ?_⟩
    cases hcommand : m.lookup ref with
    | expansion p =>
      rw [hcommand] at h
      obtain ⟨-, m₂, h, -⟩ := deeper_eq_ok_iff.1 h
      obtain rfl := eq_noExpand_of_primitive (of_during_eq_ok h)
      rfl
    | custom mac =>
      rw [hcommand] at h
      obtain ⟨_, m₂, -, h⟩ := exists_of_bind_eq_ok h
      cases h
    | _ =>
      rw [hcommand] at h
      cases h

end Run

/-! ### What a delivered token is -/

/-- A token that was found is left alone by full expansion, and one that was given comes from
`\noexpand`. -/
def Delivery.HoldsIn (d : Delivery) (m : Machine) : Prop :=
  match d.giver with
  | none => ∀ ref, d.token.value = .command ref → (m.lookup ref).isInert = true
  | some giver => ∃ ref, giver.value = .command ref ∧ m.lookup ref = .expansion .noExpand

namespace Machine

variable {m m' : Machine} {d : Delivery}

/-- What is known of a machine that has just given a token, or has found none. -/
def HasGiven (m : Machine) : Option Delivery → Prop
  | none => m.cancellation.raised = false
  | some d => d.HoldsIn m

/-- What was delivered stays what it is during expansion. -/
theorem Maintains.holdsIn (h : m.Maintains m') (hd : d.HoldsIn m) : d.HoldsIn m' := by
  obtain ⟨t, giver⟩ := d
  cases giver with
  | none =>
    intro ref href
    rcases h.meaning ref with heq | ⟨-, hrelax⟩
    · rw [heq]
      exact hd ref href
    · rw [hrelax]
      rfl
  | some giver =>
    obtain ⟨ref, href, hlookup⟩ := hd
    rcases h.meaning ref with heq | ⟨hundefined, -⟩
    · exact ⟨ref, href, heq.trans hlookup⟩
    · rw [hlookup] at hundefined
      cases hundefined

/-- What holds throughout a full expansion: shielded macros are left alone, and everything else is
expanded. -/
structure Unfurling (m : Machine) : Prop where
  shielding : 0 < m.fullExpansions
  region : ∃ modes, Input.frame m.input.sources = some .stack :: modes

theorem Unfurling.step (h : m.Unfurling) (hm : m.Maintains m') (hc : m.Continues m') :
    m'.Unfurling where
  shielding := by
    rw [hc.fullExpansions]
    exact h.shielding
  region := by
    obtain ⟨modes, hmodes⟩ := h.region
    exact ⟨modes, hm.frame.trans hmodes⟩

theorem expands_eq_not_isInert (h : 0 < m.fullExpansions) (command : Command) :
    Stream.expands m command = !command.isInert := by
  have hshielding : decide (m.fullExpansions > 0) = true := decide_eq_true h
  cases command with
  | custom mac => simp [Stream.expands, Command.isInert, hshielding]
  | _ => rfl

theorem Unfurling.expands_eq (h : m.Unfurling) (command : Command) :
    (m.input.expansionEnabled && Stream.expands m command) = !command.isInert := by
  obtain ⟨modes, hmodes⟩ := h.region
  rw [Input.expansionEnabled_of_frame hmodes, Bool.true_and, expands_eq_not_isInert h.shielding]

end Machine

namespace Run

variable {ts us : List Token} {m m' : Machine} {ds : List Delivery}

/-- Where a token was looked for, the signal that ends the run has not been given. -/
theorem raised_of_raw {r : Option Token} (h : Stream.raw m = (.ok r, m')) :
    m'.cancellation.raised = false := by
  obtain ⟨hraised, -, rfl⟩ := raw_eq_ok_iff.1 h
  rw [Machine.afterRead_eq]
  exact hraised

theorem keeps_tracedRound {R : Machine → Machine → Prop} [Machine.Unfolding R] {x : Expander}
    (hx : ∀ t, (x t).Keeps R) : (Stream.tracedRound x ()).Keeps R := by
  intro m
  have h := keeps_expandedRound hx m
  rw [expandedRound_eq_map, map_eval] at h
  exact h

theorem keeps_traced {R : Machine → Machine → Prop} [Machine.Unfolding R] {x : Expander}
    (hx : ∀ t, (x t).Keeps R) : (Stream.traced x).Keeps R :=
  Keeps.loop (fun _ => keeps_tracedRound hx) ()

theorem hasGiven_of_tracedRound (hm : m.Unfurling) {r : Option Delivery}
    (h : Stream.tracedRound expand () m = (.ok (.inr r), m')) : m'.HasGiven r := by
  unfold Stream.tracedRound at h
  obtain ⟨found, m₁, hraw, h⟩ := exists_of_bind_eq_ok h
  have hm₁ : m₁.Unfurling := by
    have hkeeps := keeps_raw (R := Machine.Maintains) m
    have hcontinues := (keeps_raw (R := Machine.Evolves) m).continues
    rw [hraw] at hkeeps hcontinues
    exact hm.step hkeeps hcontinues
  cases found with
  | none =>
    cases h
    exact raised_of_raw hraw
  | some t =>
    dsimp only at h
    cases hv : t.value with
    | char category c =>
      rw [hv] at h
      cases h
      intro ref href
      rw [hv] at href
      cases href
    | command ref =>
      rw [hv] at h
      dsimp only at h
      rw [get_bind_eval, hm₁.expands_eq] at h
      cases hinert : (m₁.lookup ref).isInert with
      | true =>
        rw [hinert] at h
        cases h
        intro other hother
        rw [hv] at hother
        cases hother
        exact hinert
      | false =>
        rw [hinert] at h
        obtain ⟨given, m₂, hexpand, h⟩ := exists_of_bind_eq_ok h
        cases given with
        | none => cases h
        | some t' =>
          cases h
          have hgiven : ({ token := t', giver := some t } : Delivery).HoldsIn m₁ :=
            lookup_eq_noExpand_of_expand hexpand
          have hkeeps := keeps_expand (R := Machine.Maintains) t m₁
          rw [hexpand] at hkeeps
          exact hkeeps.holdsIn hgiven

theorem hasGiven_of_traced (hm : m.Unfurling) {r : Option Delivery}
    (h : Stream.traced expand m = (.ok r, m')) : m'.HasGiven r := by
  let I (_ : Unit) (m : Machine) : Prop := m.Unfurling
  let post (r : Option Delivery) (m : Machine) : Prop := m.HasGiven r
  refine of_loop_eq_ok I post (fun {_ r m₁ m₂} hm₁ hround => ?_) hm h
  cases r with
  | inl again =>
    have hkeeps := keeps_tracedRound (R := Machine.Maintains) keeps_expand m₁
    have hcontinues := (keeps_tracedRound (R := Machine.Evolves) keeps_expand m₁).continues
    rw [hround] at hkeeps hcontinues
    exact hm₁.step hkeeps hcontinues
  | inr r => exact hasGiven_of_tracedRound hm₁ hround

/-- What was delivered holds at the end of the list that was expanded. -/
theorem holdsIn_of_collect (hm : m.Unfurling)
    (h : loop (Stream.collectRound expand) [] m = (.ok ds, m')) :
    m'.cancellation.raised = false ∧ ∀ d ∈ ds, d.HoldsIn m' := by
  let I (sofar : List Delivery) (m : Machine) : Prop := m.Unfurling ∧ ∀ d ∈ sofar, d.HoldsIn m
  let post (ds : List Delivery) (m : Machine) : Prop :=
    m.cancellation.raised = false ∧ ∀ d ∈ ds, d.HoldsIn m
  have hstart : I [] m := ⟨hm, fun d hd => nomatch hd⟩
  refine of_loop_eq_ok I post (fun {sofar r m₁ m₂} hI hround => ?_) hstart h
  obtain ⟨hm₁, hsofar⟩ := hI
  obtain ⟨found, m₃, htraced, hround⟩ := exists_of_bind_eq_ok hround
  have hfound := hasGiven_of_traced hm₁ htraced
  have hkeeps := keeps_traced (R := Machine.Maintains) keeps_expand m₁
  have hcontinues := (keeps_traced (R := Machine.Evolves) keeps_expand m₁).continues
  rw [htraced] at hkeeps hcontinues
  cases found with
  | none =>
    cases hround
    exact ⟨hfound, fun d hd => hkeeps.holdsIn (hsofar d (List.mem_reverse.1 hd))⟩
  | some d =>
    cases hround
    refine ⟨hm₁.step hkeeps hcontinues, fun d' hd' => ?_⟩
    rcases List.mem_cons.1 hd' with rfl | hd'
    · exact hfound
    · exact hkeeps.holdsIn (hsofar d' hd')

/-- After a full expansion the reference of each token still means what it meant when the token was
delivered, and the signal that ends the run has not been given. -/
theorem holdsIn_of_expandFullyTraced (h : Stream.expandFullyTraced expand ts m = (.ok ds, m')) :
    m'.cancellation.raised = false ∧ ∀ d ∈ ds, d.HoldsIn m' := by
  obtain ⟨m₁, hregion, rfl⟩ := shielding_eq_ok_iff.1 h
  obtain ⟨-, m₂, hcollect, rfl⟩ := region_eq_ok_iff.1 hregion
  have hinside := holdsIn_of_collect ⟨Nat.succ_pos _, ⟨_, Input.frame_cons_of_some rfl⟩⟩ hcollect
  -- Leaving the region changes no meaning.
  exact hinside

/-- Tokens that were found by a full expansion are left alone by the next one. -/
theorem expandFully_of_found (hm : m.cancellation.raised = false)
    (hd : m.expansionDepth < m.config.maxExpansionDepth) (hds : ∀ d ∈ ds, d.HoldsIn m)
    (hfound : ∀ d ∈ ds, d.giver = none) :
    Stream.expandFully expand (ds.map Delivery.token) m = (.ok (ds.map Delivery.token), m) := by
  refine expandFully_eval hm hd fun t ht ref href => ?_
  obtain ⟨d, hmem, rfl⟩ := List.mem_map.1 ht
  have hinert := hds d hmem
  rw [Delivery.HoldsIn, hfound d hmem] at hinert
  rw [Machine.expands_eq_not_isInert (Nat.succ_pos _)]
  exact congrArg (!·) (hinert ref href)

end Run

namespace Stream

/-- **Full expansion normalizes.** However it ends, the levels of nesting are what they were before. If
it gives tokens, then with the meanings that there are afterwards each of them is left alone by full
expansion, or was given by `\noexpand`; and if none was given by `\noexpand`, expanding them once more
gives the same tokens and changes nothing at all. -/
theorem expandFully_normalizes (ts : List Token) (m : Machine) :
    (expandFully expand ts m).2.expansionDepth = m.expansionDepth ∧
      (expandFully expand ts m).2.fullExpansions = m.fullExpansions ∧
      ∀ us m', expandFully expand ts m = (.ok us, m') →
        ∃ ds : List Delivery, expandFullyTraced expand ts m = (.ok ds, m') ∧
          ds.map Delivery.token = us ∧
          (∀ d ∈ ds, d.giver = none →
            ∀ ref, d.token.value = .command ref → (m'.lookup ref).isInert = true) ∧
          (∀ d ∈ ds, ∀ giver, d.giver = some giver →
            ∃ ref, giver.value = .command ref ∧ m'.lookup ref = .expansion .noExpand) ∧
          ((∀ d ∈ ds, d.giver = none) → expandFully expand us m' = (.ok us, m')) := by
  have hcontinues :=
    (Run.keeps_expandFully (R := Machine.Evolves) Run.keeps_expand ts m).continues
  refine ⟨hcontinues.expansionDepth, hcontinues.fullExpansions, fun us m' h => ?_⟩
  rw [h] at hcontinues
  obtain ⟨ds, htraced, rfl⟩ := Run.expandFully_eq_ok_iff.1 h
  obtain ⟨hgoing, hds⟩ := Run.holdsIn_of_expandFullyTraced htraced
  refine ⟨ds, htraced, rfl, fun d hd hgiver => ?_, fun d hd giver hgiver => ?_, fun hfound => ?_⟩
  · have hinert := hds d hd
    rwa [Delivery.HoldsIn, hgiver] at hinert
  · have hgiven := hds d hd
    rwa [Delivery.HoldsIn, hgiver] at hgiven
  · -- The region could be entered, so it can be entered again.
    obtain ⟨m₁, h, -⟩ := Run.shielding_eq_ok_iff.1 h
    obtain ⟨hdepth, -⟩ := Run.region_eq_ok_iff.1 h
    have hd : m'.expansionDepth < m'.config.maxExpansionDepth := by
      rw [hcontinues.expansionDepth, hcontinues.config]
      exact hdepth
    exact Run.expandFully_of_found hgoing hd hds hfound

/-- `\iftrue a` is expanded to `a`, and this is not expanded any further. -/
theorem expandFully_iftrue :
    ∃ m', expandFully expand
        [⟨.command (.controlSequence "iftrue"), none⟩, .char .letter 'a' none] Machine.standard =
          (.ok [.char .letter 'a' none], m') ∧
      m'.expansions = 1 ∧
      expandFully expand [.char .letter 'a' none] m' = (.ok [.char .letter 'a' none], m') := by
  let opener : Token := ⟨.command (.controlSequence "iftrue"), none⟩
  let a : Token := .char .letter 'a' none
  let shielded : Machine := { Machine.standard with fullExpansions := 1 }
  let chosen : Machine := { shielded with expansions := 1, branches := [⟨opener, .holds⟩] }
  let start : Machine := shielded.inRegion { tokens := [] }
  let inside : Machine := chosen.inRegion { tokens := [] }
  have hstart : start.Readable := ⟨rfl, List.cons_ne_nil _ _⟩
  have hinside : inside.Readable := ⟨rfl, List.cons_ne_nil _ _⟩
  have hlookup : Machine.standard.lookup (.controlSequence "iftrue") = .expansion .ifTrue :=
    Machine.lookup_standard_of_find? (by cbv)
  have hexpand : expand opener (start.push [a]) = (.ok none, inside.push [a]) :=
    Run.expand_primitive rfl hlookup (Nat.zero_lt_succ _) (by decide) rfl
  have hround : tracedRound expand () (start.push [opener, a]) = (.ok (.inl ()), inside.push [a]) := by
    have hexpands : expands (start.push [a]) ((start.push [a]).lookup (.controlSequence "iftrue")) =
        true := congrArg (expands _) hlookup
    unfold tracedRound
    rw [Run.bind_of_ok (Run.raw_push hstart)]
    dsimp only [opener]
    have henabled : (start.push [a]).input.expansionEnabled = true := rfl
    rw [Run.get_bind_eval, hexpands, henabled, Bool.and_true, if_pos rfl, Run.bind_of_ok hexpand]
    rfl
  have hfound : tracedRound expand () (inside.push [a]) =
      (.ok (.inr (some { token := a })), inside.push []) := by
    unfold tracedRound
    rw [Run.bind_of_ok (Run.raw_push hinside)]
    rfl
  have hfirst : traced expand (start.push [opener, a]) = (.ok (some { token := a }), inside) := by
    unfold traced
    rw [Run.loop_of_progress hround (.inl (by decide)), Run.loop_of_answer hfound,
      Run.push_nil hinside]
  have hlast : traced expand inside = (.ok none, inside) := by
    refine Run.loop_of_answer ?_
    unfold tracedRound
    rw [Run.bind_of_ok (Run.raw_inRegion_nil (m := chosen) rfl .stack)]
    rfl
  have hcollect : Run.loop (collectRound expand) [] (start.push [opener, a]) =
      (.ok [{ token := a }], inside) := by
    have hgo : collectRound expand [] (start.push [opener, a]) =
        (.ok (.inl [{ token := a }]), inside) := Run.bind_of_ok hfirst
    have hend : collectRound expand [{ token := a }] inside = (.ok (.inr [{ token := a }]), inside) :=
      Run.bind_of_ok hlast
    rw [Run.loop_of_progress hgo (.inl (by decide)), Run.loop_of_answer hend]
  have htraced : expandFullyTraced expand [opener, a] Machine.standard =
      (.ok [{ token := a }], { chosen with fullExpansions := 0 }) := by
    refine Run.shielding_eq_ok_iff.2 ⟨chosen, Run.region_eq_ok_iff.2 ⟨by decide, inside, ?_, rfl⟩, rfl⟩
    exact hcollect
  have hrun := Run.expandFully_eq_ok_iff.2 ⟨_, htraced, rfl⟩
  obtain ⟨-, -, hnormalizes⟩ := expandFully_normalizes [opener, a] Machine.standard
  obtain ⟨ds, hds, -, -, -, hagain⟩ := hnormalizes _ _ hrun
  rw [htraced] at hds
  cases hds
  exact ⟨_, hrun, rfl, hagain fun d hd => by rw [List.mem_singleton.1 hd]⟩

end Stream

end Gullet
