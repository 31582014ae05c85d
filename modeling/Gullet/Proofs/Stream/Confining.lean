import Gullet.Proofs.Stream.Leaving
import Gullet.Proofs.Taking.Expansion
import Gullet.Proofs.Unfolding.Keeping
import Gullet.Proofs.Unfolding.Sheltering

/-!
# What a region confines

An action that reads a list as a region may expand whatever it meets, open files, open further regions,
and fail at any moment. When the region is closed, the sources below it are what they were before, except
that the topmost file has been left if `\endinput` left it, of which there is a record; and nothing that
was read came from them, since on other sources the action does the same.
-/

namespace Gullet

/-- The machine in which the result of an expansion is captured. -/
def Machine.capturing (m : Machine) : Machine := { m with input := m.input.enter { kind := .capture } }

/-- The machine without the capture that stands above its lowest `height` sources. -/
def Machine.released (m : Machine) (height : Nat) : Machine :=
  { m with input := ⟨(Input.takeCapture height m.input.sources).2⟩ }

/-- A capture that is taken away stood above the region. -/
theorem Machine.Records.released {m m' : Machine} (h : m.capturing.Records m') :
    m.Records (m'.released m.input.sources.length) := by
  obtain ⟨left, hleft, hstands⟩ := h
  refine ⟨left, hleft, fun mode s hgrafted => ?_⟩
  obtain ⟨hbound, hgrafted'⟩ := hstands (.cons (InputSource.not_isRegion_capture _) hgrafted)
  obtain ⟨above, pending, -, hsources, -⟩ := hgrafted.exists_append
  have hheight : m.input.sources.length = above.length + 1 + (Input.leaving left s).length := by
    simp [hsources]
    omega
  refine ⟨hbound, ?_⟩
  unfold Machine.released
  rw [hheight]
  exact (hgrafted'.takeCapture above.length).2

namespace Run

variable {α β : Type}

/-- Runs an action and gives its result, be it a failure. -/
def attempt (a : Run α) : Run (Except Halt α) := fun m => (.ok (a m).1, (a m).2)

/-- What can be done with the input during an expansion: operations on the unexpanded and the expanded
stream, one after another. Each of them may depend on what those before it gave, also on failures. -/
inductive Operates : {α : Type} → Run α → Prop where
  | pure {α : Type} (x : α) : Operates (pure x : Run α)
  | throw {α : Type} (h : Halt) : Operates (throw h : Run α)
  | bind {α β : Type} {a : Run α} {f : α → Run β} (ha : Operates a) (hf : ∀ x, Operates (f x)) :
      Operates (a >>= f)
  | attempt {α : Type} {a : Run α} (ha : Operates a) : Operates (attempt a)
  /-- Reading a token as it stands in the input. -/
  | raw : Operates Stream.raw
  /-- Reading a token, with expansion. -/
  | main : Operates Stream.main
  /-- Putting a token back. -/
  | back (t : Token) : Operates (pushBack t)
  /-- Pushing the tokens of an expansion. -/
  | push (ts : List Token) : Operates (pushTokens ts)
  /-- Expanding the next token in place. -/
  | expandNext : Operates Stream.expandNext
  /-- Expanding a token. -/
  | expandOnce (t : Token) : Operates (expandOnce t)
  /-- Expanding tokens until no expandable command is left. -/
  | expandFully (ts : List Token) : Operates (Stream.expandFully expand ts)
  /-- Reading a list as a region. -/
  | region {α : Type} {a : Run α} (l : TokenList) (ha : Operates a) : Operates (regionKeeping l a)

/-- Looking at a token is reading it and putting it back. -/
theorem Operates.peek {s : Stream} (hs : Operates s) : Operates s.peek := by
  refine .bind hs fun t? => ?_
  cases t? with
  | none => exact .pure none
  | some t => exact .bind (.back t) fun _ => .pure (some t)

/-- What lies below a region makes no difference to the action, which finishes on both of two parallel
machines. -/
def Confined (a : Run α) : Prop :=
  ∀ ⦃levels mode s t m n⦄, Machine.Parallel mode s t m n → m.Ready levels → n.Ready levels →
    ∃ r m' n', a m = (r, m') ∧ a n = (r, n') ∧ Machine.Parallel mode s t m' n' ∧
      m.Continues m' ∧ n.Continues n'

/-- An action that any relation respects which the acts of expansion respect. -/
theorem confined_of_respects {a : Run α} (h : ∀ (P : Relation) [Overflowing P], a.Respects P)
    (hf : ∀ levels, a.Finishes levels) : a.Confined := by
  intro levels mode s t m n hp hm hn
  have hmeets := Coupling.Couples.meets (h sheltering.Coupled) (i := (mode, s, t)) hp
  have hm' := hf levels m hm
  have hn' := hf levels n hn
  have hkeeps : a.Keeps Machine.Evolves := h (Keeping Machine.Evolves)
  have hcm := (hkeeps m).continues
  have hcn := (hkeeps n).continues
  cases ham : a m with
  | mk r m' =>
    cases han : a n with
    | mk r' n' =>
      rw [ham] at hcm
      rw [han] at hcn
      rw [ham, han] at hmeets
      cases hmeets with
      | same r hp' => exact ⟨r, m', n', rfl, rfl, hp', hcm, hcn⟩
      | first hhalt m' q => exact absurd hhalt (hm'.of_error ham)
      | second hhalt p n' => exact absurd hhalt (hn'.of_error han)
      | parted hparted q => exact hparted.elim

namespace Confined

theorem bind {a : Run α} {f : α → Run β} (ha : a.Confined) (hf : ∀ x, (f x).Confined) :
    (a >>= f).Confined := by
  intro levels mode s t m n hp hm hn
  obtain ⟨r, m', n', ham, han, hp', hcm, hcn⟩ := ha hp hm hn
  cases r with
  | error h => exact ⟨.error h, m', n', bind_of_error ham, bind_of_error han, hp', hcm, hcn⟩
  | ok x =>
    rw [bind_of_ok ham, bind_of_ok han]
    obtain ⟨r, m'', n'', hfm, hfn, hp'', hcm', hcn'⟩ :=
      hf x hp' (hm.of_continues hcm) (hn.of_continues hcn)
    exact ⟨r, m'', n'', hfm, hfn, hp'', hcm.trans hcm', hcn.trans hcn'⟩

theorem attempt {a : Run α} (ha : a.Confined) : (attempt a).Confined := by
  intro levels mode s t m n hp hm hn
  obtain ⟨r, m', n', ham, han, hp', hcm, hcn⟩ := ha hp hm hn
  refine ⟨.ok r, m', n', ?_, ?_, hp', hcm, hcn⟩
  · rw [Run.attempt, ham]
  · rw [Run.attempt, han]

/-- A region inside the region: what lies below it are all sources of the two machines. -/
theorem regionKeeping {a : Run α} (l : TokenList) (ha : a.Confined) :
    (regionKeeping l a).Confined := by
  intro levels mode s t m n hp hm hn
  have hlimit : n.expansionDepth < n.config.maxExpansionDepth ↔
      m.expansionDepth < m.config.maxExpansionDepth := by rw [hp.others]
  by_cases hd : m.expansionDepth < m.config.maxExpansionDepth
  · rw [regionKeeping_of_lt hd, regionKeeping_of_lt (hlimit.2 hd)]
    obtain ⟨r, m', n', ham, han, hp', hcm, hcn⟩ :=
      ha (hp.inRegion l) (hm.inRegion hd l) (hn.inRegion (hlimit.2 hd) l)
    rw [ham, han]
    obtain ⟨rest, x, y, -, hx, hy⟩ := hp'.exists_closeAbove
    dsimp only
    rw [hx, hy]
    exact ⟨_, _, _, rfl, rfl, hp.leaveRegion hp', hcm.leaveRegion, hcn.leaveRegion⟩
  · rw [regionKeeping_of_le (Nat.le_of_not_lt hd),
      regionKeeping_of_le (Nat.le_of_not_lt (mt hlimit.1 hd)), hp.looksLike.config,
      hp.looksLike.atlas]
    exact ⟨_, m, n, rfl, rfl, hp, .refl m, .refl n⟩

end Confined

/-! ### Expanding a token -/

theorem expandOnce_of_not_canExpand {t : Token} {m : Machine}
    (h : m.scopes.bindings.canExpand t = false) : expandOnce t m = (.ok none, m) := by
  unfold expandOnce
  rw [get_bind_eval, h]
  rfl

/-- What a token expands to is what is held and what has been captured, if the expansion succeeds. The
capture is removed in any case. -/
theorem expandOnce_of_canExpand {t : Token} {m : Machine} (h : m.scopes.bindings.canExpand t = true) :
    expandOnce t m =
      ((expand t m.capturing).1.map fun held =>
          some (held.toList ++
            (Input.takeCapture m.input.sources.length (expand t m.capturing).2.input.sources).1),
        (expand t m.capturing).2.released m.input.sources.length) := by
  have hcatch : (tryCatch (Except.ok <$> expand t) fun h => Pure.pure (.error h) : Run _) m.capturing =
      (.ok (expand t m.capturing).1, (expand t m.capturing).2) := by
    rw [tryCatch_eval, map_eq_pure_bind, bind_eval]
    rcases expand t m.capturing with ⟨halt | held, m'⟩
    · rfl
    · rfl
  unfold expandOnce
  rw [get_bind_eval, h, if_pos rfl, set_bind_eval]
  refine (bind_of_ok hcatch).trans ?_
  rw [get_bind_eval]
  rcases expand t m.capturing with ⟨halt | held, m'⟩
  · rfl
  · rfl

theorem continues_capturing (m : Machine) : m.Continues m.capturing := by
  refine .of_input _ fun ha => Input.accounted_cons.2 ⟨fun lexer hl => ?_, ha⟩
  cases hl

theorem continues_released (m : Machine) (height : Nat) : m.Continues (m.released height) :=
  .of_input _ fun ha s hs => ha s (Input.mem_of_mem_takeCapture hs)

theorem confined_expandOnce (t : Token) : (expandOnce t).Confined := by
  have hexpand : (expand t).Confined :=
    confined_of_respects (fun P _ => respects_expand t) fun _ => finishes_expand t
  intro levels mode s t₀ m n hp hm hn
  have hbindings : n.scopes.bindings = m.scopes.bindings := by rw [hp.others]
  cases hcan : m.scopes.bindings.canExpand t with
  | false =>
    rw [expandOnce_of_not_canExpand hcan, expandOnce_of_not_canExpand (hbindings ▸ hcan)]
    exact ⟨_, m, n, rfl, rfl, hp, .refl m, .refl n⟩
  | true =>
    rw [expandOnce_of_canExpand hcan, expandOnce_of_canExpand (hbindings ▸ hcan)]
    have hcapturing : Machine.Parallel mode s t₀ m.capturing n.capturing := by
      obtain ⟨s', t', hspared, hgrafted⟩ := hp.standing
      exact hp.withInput ⟨s', t', hspared, .cons (InputSource.not_isRegion_capture _) hgrafted⟩
    obtain ⟨r, m', n', hem, hen, hp', hcm, hcn⟩ := hexpand hcapturing
      (hm.of_continues (continues_capturing m)) (hn.of_continues (continues_capturing n))
    obtain ⟨hcaptured, hstanding⟩ := hp.standing.takeCapture hp'.standing
    rw [hem, hen, hcaptured]
    exact ⟨_, _, _, rfl, rfl, hp'.withInput hstanding,
      (continues_capturing m).trans (hcm.trans (continues_released m' _)),
      (continues_capturing n).trans (hcn.trans (continues_released n' _))⟩

/-- **Whatever operates on the input is confined to the region.** -/
theorem Operates.confined {a : Run α} (ha : a.Operates) : a.Confined := by
  induction ha with
  | pure x => exact fun _ _ _ _ m n hp _ _ => ⟨.ok x, m, n, rfl, rfl, hp, .refl m, .refl n⟩
  | throw h => exact fun _ _ _ _ m n hp _ _ => ⟨.error h, m, n, rfl, rfl, hp, .refl m, .refl n⟩
  | bind ha hf iha ihf => exact iha.bind ihf
  | attempt ha ih => exact ih.attempt
  | raw =>
    exact confined_of_respects (fun P _ => respects_raw) fun _ => (spends_stream takes_raw).finishes
  | main =>
    exact confined_of_respects (fun P _ => respects_main) fun _ => (spends_stream takes_main).finishes
  | back t => exact confined_of_respects (fun P _ => respects_pushBack t) fun _ => finishes_pushBack t
  | push ts =>
    exact confined_of_respects (fun P _ => respects_pushTokens ts) fun _ => finishes_pushTokens ts
  | expandNext =>
    exact confined_of_respects (fun P _ => respects_expandNext) fun _ => finishes_expandNext
  | expandOnce t => exact confined_expandOnce t
  | expandFully ts =>
    exact confined_of_respects (fun P _ => relates_expandFully respects_expand ts) fun _ =>
      (spends_expandFully counts_expand ts).finishes
  | region l ha ih => exact ih.regionKeeping l

/-! ### The sources below a region -/

theorem records_expandOnce (t : Token) : (expandOnce t).Keeps Machine.Records := by
  intro m
  cases hcan : m.scopes.bindings.canExpand t with
  | false =>
    rw [expandOnce_of_not_canExpand hcan]
    exact refl_of Machine.Records m
  | true =>
    rw [expandOnce_of_canExpand hcan]
    exact Machine.Records.released (keeps_expand t m.capturing)

/-- Whatever operates on the input records the files that it leaves. -/
theorem Operates.records {a : Run α} (ha : a.Operates) : a.Keeps Machine.Records := by
  induction ha with
  | pure x => exact keeps_pure x
  | throw h => exact keeps_throw h
  | bind ha hf iha ihf => exact iha.bind ihf
  | attempt ha ih => exact ih
  | raw => exact keeps_raw
  | main => exact keeps_main
  | back t => exact keeps_pushBack t
  | push ts => exact keeps_pushTokens ts
  | expandNext => exact respects_expandNext (P := Keeping Machine.Records)
  | expandOnce t => exact records_expandOnce t
  | expandFully ts => exact keeps_expandFully keeps_expand ts
  | region l ha ih => exact ih.regionKeeping l

/-- When a region has been read, the sources below it are what the record says. The action that read it
made the record. -/
theorem Keeps.sources_regionKeeping {a : Run α} (ha : a.Keeps Machine.Records) (l : TokenList)
    (m : Machine) :
    ∃ left, (Run.regionKeeping l a m).2.leftFiles = left ++ m.leftFiles ∧
      (left ≠ [] → (Run.regionKeeping l a m).2.leftFiles = (a (m.inRegion l)).2.leftFiles) ∧
      (Run.regionKeeping l a m).2.input.sources = Input.leaving left m.input.sources := by
  by_cases hd : m.expansionDepth < m.config.maxExpansionDepth
  · rw [regionKeeping_of_lt hd]
    obtain ⟨left, hleft, -, hsources⟩ := (ha (m.inRegion l)).sources_leaveRegion
    exact ⟨left, hleft, fun _ => rfl, hsources⟩
  · rw [regionKeeping_of_le (Nat.le_of_not_lt hd)]
    exact ⟨[], rfl, fun hleft => absurd rfl hleft, (Input.leaving_nil _).symm⟩

/-- A region is read in the same way on other sources. -/
theorem Confined.regionKeeping_on {a : Run α} (ha : a.Confined) (l : TokenList) {m : Machine}
    (hm : Input.Accounted m.input.sources) {others : List InputSource} (ho : Input.Accounted others)
    (hcount : Input.fileCount ⟨others⟩ = m.input.fileCount) :
    ∃ result rest, ∃ m' : Machine, ∃ x y,
      Run.regionKeeping l a m = (.ok (result, rest), { m' with input := ⟨x⟩ }) ∧
      Run.regionKeeping l a { m with input := ⟨others⟩ } =
        (.ok (result, rest), { m' with input := ⟨y⟩ }) ∧
      m'.expansionDepth = m.expansionDepth := by
  by_cases hd : m.expansionDepth < m.config.maxExpansionDepth
  · let n : Machine := { m with input := ⟨others⟩ }
    have hdn : n.expansionDepth < n.config.maxExpansionDepth := hd
    obtain ⟨r, m', n', ham, han, hp', hcm, -⟩ := ha (m.parallel_inRegion l hcount)
      ((Machine.ready_of_lt hm hd).inRegion hd l) ((Machine.ready_of_lt (m := n) ho hdn).inRegion hdn l)
    obtain ⟨rest, x, y, -, hx, hy⟩ := Machine.Parallel.exists_closeAbove (m := m) (n := n) hp'
    obtain ⟨j, rfl, -⟩ := hp'.exists_eq
    refine ⟨r, { l with tokens := rest }, { m' with expansionDepth := m'.expansionDepth - 1 }, x, y,
      ?_, ?_, congrArg (· - 1) hcm.expansionDepth⟩
    · rw [regionKeeping_of_lt hd, ham, Machine.leaveRegion, hx]
    · rw [regionKeeping_of_lt hdn, han, Machine.leaveRegion, hy]
  · have hle := Nat.le_of_not_lt hd
    exact ⟨_, l, m, m.input.sources, others, regionKeeping_of_le hle, regionKeeping_of_le hle, rfl⟩

/-- **A region confines what reads it.**

Whatever operates on the input while a list is read as a region, and however it ends: afterwards the
sources are those that were there before, except that the topmost file among them has been left if one of
the operations was an `\endinput` that left it, as their record says; and expansion is nested as before.
And nothing that was read came from these sources, since on others, with as many open files, all
operations give the same. -/
theorem region_confined {a : Run α} (ha : a.Operates) (l : TokenList) {m : Machine}
    (hm : Input.Accounted m.input.sources) :
    ∃ result rest m' left, Run.regionKeeping l a m = (.ok (result, rest), m') ∧
      m'.leftFiles = left ++ m.leftFiles ∧
      (left ≠ [] → m'.leftFiles = (a (m.inRegion l)).2.leftFiles) ∧
      m'.input.sources = Input.leaving left m.input.sources ∧
      m'.expansionDepth = m.expansionDepth ∧
      ∀ others, Input.Accounted others → Input.fileCount ⟨others⟩ = m.input.fileCount →
        Run.regionKeeping l a { m with input := ⟨others⟩ } =
          (.ok (result, rest), { m' with input := ⟨Input.leaving left others⟩ }) := by
  obtain ⟨result, rest, m', x, -, hrun, -, hdepth⟩ := ha.confined.regionKeeping_on l hm hm rfl
  obtain ⟨left, hleft, hmade, hsources⟩ := ha.records.sources_regionKeeping l m
  rw [hrun] at hleft hmade hsources
  refine ⟨result, rest, { m' with input := ⟨x⟩ }, left, hrun, hleft, hmade, hsources, hdepth,
    fun others ho hcount => ?_⟩
  obtain ⟨result', rest', m'', x', y, hrun', hother, -⟩ :=
    ha.confined.regionKeeping_on l hm ho hcount
  obtain ⟨hresult, hafter⟩ := Prod.mk.inj (hrun.symm.trans hrun')
  cases hresult
  have hafter' : ({ m'' with input := ⟨y⟩ } : Machine) = { m' with input := ⟨y⟩ } :=
    congrArg (fun i : Machine => { i with input := ⟨y⟩ }) hafter.symm
  rw [hafter'] at hother
  -- the record is the same, so that the same has become of the other sources
  obtain ⟨left', hleft', -, hsources'⟩ :=
    ha.records.sources_regionKeeping l { m with input := ⟨others⟩ }
  rw [hother] at hleft' hsources'
  obtain rfl : left' = left := List.append_cancel_right (hleft'.symm.trans hleft)
  rw [hother, ← hsources']

/-- If `\endinput` stands in the list, the file below is left, whichever it is. All the same nothing is
read from it after the last token of the list. -/
theorem region_confined_endInput :
    let l : TokenList :=
      { tokens := [⟨.command (.controlSequence "endinput"), none⟩, .char .letter 'x' none] }
    let file : InputSource :=
      { pending := .ofList [.char .letter 'y' none], kind := .file (.start ['z'] .empty false) }
    let m : Machine := { Machine.standard with input := ⟨[file, { kind := .bottom }]⟩ }
    let two : Run (Option TokenValue × Option TokenValue) := do
      let t ← Stream.main
      let u ← Stream.main
      return (t.map (·.value), u.map (·.value))
    two.Operates ∧ Input.Accounted m.input.sources ∧
      ∃ rest m', Run.regionKeeping l two m = (.ok (.ok (some (.char .letter 'x'), none), rest), m') ∧
        m'.leftFiles = [1] ∧ m'.leftFiles = (two (m.inRegion l)).2.leftFiles ∧
        m'.input.sources = Input.endTopFile m.input.sources ∧
        m'.expansionDepth = m.expansionDepth ∧
        ∀ others, Input.Accounted others → Input.fileCount ⟨others⟩ = 1 →
          Run.regionKeeping l two { m with input := ⟨others⟩ } =
            (.ok (.ok (some (.char .letter 'x'), none), rest),
              { m' with input := ⟨Input.endTopFile others⟩ }) := by
  intro l file m two
  have htwo : two.Operates := .bind .main fun t => .bind .main fun u => .pure _
  have hm : Input.Accounted m.input.sources := by
    refine Input.accounted_cons.2 ⟨fun lexer hl => ?_, Input.accounted_bottom .empty⟩
    cases hl
    exact .start _ _ _
  have hresult : (Run.regionKeeping l two m).1.toOption.bind (·.1.toOption) =
      some (some (.char .letter 'x'), none) := by decide +kernel
  have hrecord : (Run.regionKeeping l two m).2.leftFiles = [1] := by decide +kernel
  obtain ⟨result, rest, m', left, hrun, hleft, hmade, hsources, hdepth, hothers⟩ :=
    region_confined htwo l hm
  rw [hrun] at hresult hrecord
  obtain rfl : left = [1] := (List.append_nil left).symm.trans (hleft.symm.trans hrecord)
  cases result with
  | error halt => cases hresult
  | ok values =>
    obtain rfl : values = (some (.char .letter 'x'), none) := Option.some.inj hresult
    refine ⟨htwo, hm, rest, m', hrun, hrecord, hmade (List.cons_ne_nil _ _), hsources, hdepth,
      fun others ho hcount => ?_⟩
    rw [hothers others ho hcount, ← hcount, Input.leaving_top]

end Run

end Gullet
