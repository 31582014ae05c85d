import Gullet.Proofs.Input.Capturing
import Gullet.Proofs.Stream.Confining
import Gullet.Proofs.Stream.Supplying

/-!
# Expanding a token with and without a capture

The expansion of a token can be left in front of the input, or captured and given to the caller, who may
put it in front of the input. The operands are read from the same place, and what is put back while they
are read is captured too. So both lead to the same machine, as long as the expansion does not read past
the end of the file in which it begins, and opens no file above what it puts back.
-/

namespace Gullet

/-- The keys belong to a source that has been registered. -/
structure KeyRange.ReservedIn (keys : KeyRange) (a : Atlas) : Prop where
  nonempty : keys.first < keys.limit
  registered : keys.limit ≤ a.nextKey

namespace Machine

/-- The second machine has opened no file in the place of one that the first one had open, or could have
had open: at each height there is the file that was there, or a newer one, or none. -/
structure ReopensNothing (m m' : Machine) : Prop where
  nextKey : m.atlas.nextKey ≤ m'.atlas.nextKey
  keysAt {height : Nat} {keys : KeyRange} (hkeys : keys.ReservedIn m.atlas)
    (h : Input.keysAt height m'.input.sources = some keys) :
    Input.keysAt height m.input.sources = some keys

namespace ReopensNothing

variable {m m' m'' : Machine}

theorem trans (h : m.ReopensNothing m') (h' : m'.ReopensNothing m'') : m.ReopensNothing m'' where
  nextKey := Nat.le_trans h.nextKey h'.nextKey
  keysAt hkeys hopen :=
    h.keysAt hkeys (h'.keysAt ⟨hkeys.nonempty, Nat.le_trans hkeys.registered h.nextKey⟩ hopen)

/-- An act that opens nothing. -/
theorem of_suffix (hatlas : m'.atlas = m.atlas)
    (h : Input.keysOf m'.input.sources <:+ Input.keysOf m.input.sources) : m.ReopensNothing m' where
  nextKey := Nat.le_of_eq (congrArg Atlas.nextKey hatlas).symm
  keysAt _ hopen := Input.keysAt_of_suffix h hopen

/-- An act that has nothing to do with the input. -/
theorem of_eq (hatlas : m'.atlas = m.atlas) (hinput : m'.input = m.input) : m.ReopensNothing m' :=
  of_suffix hatlas (by simp only [hinput, List.suffix_refl])

theorem push (m : Machine) (ts : List Token) :
    m.ReopensNothing { m with input := m.input.pushAll ts } := by
  refine ⟨Nat.le_refl _, fun {height keys} _ hopen => ?_⟩
  rcases Input.sources_pushAll m.input ts with ⟨-, hpush⟩ | ⟨s, below, hs, hpush⟩
  · dsimp only at hopen
    rw [hpush] at hopen
    cases height with
    | zero => cases hopen
    | succ height => cases hopen
  · dsimp only at hopen
    rw [hpush] at hopen
    rw [hs]
    exact hopen

/-- A file that is opened has new keys, or none. -/
theorem openSource (m : Machine) (origin : Origin) (content : String) :
    m.ReopensNothing (Run.openSource origin content m).2 := by
  let registered := m.atlas.register origin content.toList
  have hnew : m.atlas.nextKey ≤ registered.2.nextKey ∧ ¬registered.1.ReservedIn m.atlas := by
    dsimp only [registered]
    unfold Atlas.register
    dsimp only
    split
    · refine ⟨Nat.le_add_right _ _, fun hreserved => ?_⟩
      exact absurd hreserved.registered (Nat.not_le_of_lt hreserved.nonempty)
    · exact ⟨Nat.le_refl _, fun hreserved => absurd hreserved.nonempty (Nat.lt_irrefl 0)⟩
  refine ⟨hnew.1, fun {height keys} hkeys hopen => ?_⟩
  rcases Input.keysAt_cons hopen with hfile | hbelow
  · cases hfile
    exact absurd hkeys hnew.2
  · exact hbelow

theorem leaveRegion {l : TokenList} (h : (m.inRegion l).ReopensNothing m') :
    m.ReopensNothing (m.leaveRegion m') := by
  refine ⟨h.nextKey, fun {height keys} hkeys hopen => ?_⟩
  have hsuffix : Input.keysOf (m.leaveRegion m').input.sources <:+ Input.keysOf m'.input.sources := by
    have hdrop : (m.leaveRegion m').input.sources =
        m'.input.sources.drop (m'.input.sources.length - m.input.sources.length) := by
      simp [Machine.leaveRegion, Run.closeAbove, List.splitAt_eq]
    rw [hdrop]
    unfold Input.keysOf
    rw [List.map_drop]
    exact List.drop_suffix _ _
  rcases Input.keysAt_cons (h.keysAt hkeys (Input.keysAt_of_suffix hsuffix hopen)) with hregion | hbelow
  · cases hregion
  · exact hbelow

end ReopensNothing

instance : Unfolding ReopensNothing where
  refl _ := .of_eq rfl rfl
  trans _ _ _ := .trans
  read m := .of_suffix rfl (Input.keysOf_read _ _ _ _)
  skip _ _ := .of_eq rfl rfl
  push := .push
  announce _ _ := .of_eq rfl rfl
  put _ _ _ := .of_eq rfl rfl
  name _ _ _ := .of_eq rfl rfl
  openBranch _ _ := .of_eq rfl rfl
  closeBranch _ := .of_eq rfl rfl
  count _ := .of_eq rfl rfl
  openSource := .openSource
  endInput m := .of_suffix rfl (by simp only [Machine.leaveFile, Input.keysOf_endTopFile, List.suffix_refl])
  region _ h := h.leaveRegion
  deeper h := ⟨h.nextKey, h.keysAt⟩
  shielding h := ⟨h.nextKey, h.keysAt⟩

/-- The source with the given keys is a registered file that is no longer open. -/
def HasDropped (m : Machine) (height : Nat) (keys? : Option KeyRange) : Prop :=
  ∃ keys, keys? = some keys ∧ keys.ReservedIn m.atlas ∧
    Input.keysAt height m.input.sources ≠ some keys

/-- The machines are the same, but what is put in front of a source of the one is captured in the other.
The source has the given keys, and stands on as many others as is said. -/
structure CapturedIn (height : Nat) (keys? : Option KeyRange) (m n : Machine) : Prop where
  others : n = { m with input := n.input }
  sources : Input.Captured height keys? m.input.sources n.input.sources
  reserved : ∀ keys, keys? = some keys → keys.ReservedIn m.atlas

namespace CapturedIn

variable {height : Nat} {keys? : Option KeyRange} {m n m' n' : Machine}

theorem exists_eq (h : m.CapturedIn height keys? n) :
    ∃ j : Input, n = { m with input := j } ∧ Input.Captured height keys? m.input.sources j.sources :=
  ⟨n.input, h.others, h.sources⟩

theorem looksLike (h : m.CapturedIn height keys? n) : m.LooksLike n := by
  obtain ⟨j, rfl, hsources⟩ := h.exists_eq
  exact ⟨rfl, hsources.expansionEnabled, hsources.fileCount⟩

/-- The input is replaced in both machines. -/
theorem withInput {i j : Input} (h : m.CapturedIn height keys? n)
    (hij : Input.Captured height keys? i.sources j.sources) :
    CapturedIn height keys? { m with input := i } { n with input := j } := by
  have hreserved := h.reserved
  obtain ⟨k, rfl, -⟩ := h.exists_eq
  exact ⟨rfl, hij, hreserved⟩

/-- Something is done to both machines that has nothing to do with the input. -/
theorem map {f : Machine → Machine} (hf : Machine.IgnoresInput f) (hatlas : (f m).atlas = m.atlas)
    (h : m.CapturedIn height keys? n) : CapturedIn height keys? (f m) (f n) := by
  have hreserved := h.reserved
  obtain ⟨j, rfl, hsources⟩ := h.exists_eq
  have hinput : (f m).input = m.input := congrArg (fun m => m.input) (hf m m.input)
  rw [hf m j]
  refine ⟨rfl, ?_, by rwa [hatlas]⟩
  rw [hinput]
  exact hsources

/-! ### Regions -/

theorem inRegion (h : m.CapturedIn height keys? n) (l : TokenList) :
    Parallel l.mode m.input.sources n.input.sources (m.inRegion l) (n.inRegion l) := by
  have hcount := h.looksLike.fileCount
  obtain ⟨j, rfl, -⟩ := h.exists_eq
  exact parallel_inRegion m l hcount

theorem leaveRegion {mode : ListMode} (h : m.CapturedIn height keys? n)
    (hatlas : m.atlas.nextKey ≤ m'.atlas.nextKey)
    (hin : Parallel mode m.input.sources n.input.sources m' n') :
    CapturedIn height keys? (m.leaveRegion m') (n.leaveRegion n') := by
  obtain ⟨rest, x, y, hspared, hx, hy⟩ := hin.exists_closeAbove
  have hsources : Input.Captured height keys? x y := by
    cases hspared with
    | same => exact h.sources
    | ended => exact h.sources.endTopFile
  have hreserved (keys : KeyRange) (hkeys : keys? = some keys) : keys.ReservedIn m'.atlas :=
    ⟨(h.reserved keys hkeys).nonempty, Nat.le_trans (h.reserved keys hkeys).registered hatlas⟩
  have hclosed : CapturedIn height keys? { m' with input := ⟨x⟩ } { n' with input := ⟨y⟩ } := by
    obtain ⟨j, rfl, -⟩ := hin.exists_eq
    exact ⟨rfl, hsources, hreserved⟩
  unfold Machine.leaveRegion
  rw [hx, hy]
  exact hclosed.map (f := fun m => { m with expansionDepth := m.expansionDepth - 1 })
    (fun _ _ => rfl) rfl

/-! ### Acts on the input -/

theorem hasRead (h : m.CapturedIn height keys? n) :
    m.hasRead.HasDropped height keys? ∨
      n.reading.result = m.reading.result ∧ n.reading.comments = m.reading.comments ∧
        CapturedIn height keys? m.hasRead n.hasRead := by
  have hreserved := h.reserved
  obtain ⟨j, rfl, hsources⟩ := h.exists_eq
  rcases hsources.read m.codeOf m.config.retainComments true with
    ⟨-, hfile, hlength⟩ | ⟨hresult, hcomments, hread⟩
  · left
    obtain ⟨keys, hkeys⟩ := Option.isSome_iff_exists.1 hfile
    refine ⟨keys, hkeys, hreserved keys hkeys, ?_⟩
    have hnone : Input.keysAt height m.hasRead.input.sources = none := Input.keysAt_of_le hlength
    rw [hnone]
    exact nofun
  · exact .inr ⟨hresult, hcomments, h.withInput hread⟩

theorem openSource (h : m.CapturedIn height keys? n) (origin : Origin) (content : String) :
    CapturedIn height keys? (Run.openSource origin content m).2
      (Run.openSource origin content n).2 := by
  have hatlas := (ReopensNothing.openSource m origin content).nextKey
  have hreserved := h.reserved
  obtain ⟨j, rfl, hsources⟩ := h.exists_eq
  exact ⟨rfl, .cons _ hsources, fun keys hkeys =>
    ⟨(hreserved keys hkeys).nonempty, Nat.le_trans (hreserved keys hkeys).registered hatlas⟩⟩

theorem leaveFile (h : m.CapturedIn height keys? n) :
    CapturedIn height keys? m.leaveFile n.leaveFile := by
  have hfiles := h.looksLike.fileCount
  have hreserved := h.reserved
  obtain ⟨j, rfl, hsources⟩ := h.exists_eq
  refine ⟨?_, hsources.endTopFile, hreserved⟩
  unfold Machine.leaveFile
  rw [hfiles]

end CapturedIn

end Machine

/-- Where the capture is: below a region, or on the source that stands on the given number of others. -/
inductive CapturePlace where
  | belowRegion (mode : ListMode) (s t : List InputSource)
  | onSource (height : Nat) (keys? : Option KeyRange)

/-- The coupling of machines of which the second one captures what is put in front of a source of the
first one. They part when the first one has dropped that source. -/
def capturing : Coupling CapturePlace where
  Joins
    | .belowRegion mode s t => Machine.Parallel mode s t
    | .onSource height keys? => Machine.CapturedIn height keys?
  First halt := halt = .outOfSteps
  Second halt := halt = .outOfSteps
  Parted
    | .belowRegion _ _ _, _ => False
    | .onSource height keys?, m => m.HasDropped height keys?
  Stays := Machine.ReopensNothing

namespace capturing

open Coupling

/-- Something is done to both machines that has nothing to do with the input. -/
theorem joins_map {f : Machine → Machine} (hf : Machine.IgnoresInput f)
    (hatlas : ∀ m, (f m).atlas = m.atlas) {place : CapturePlace} {m n : Machine}
    (h : capturing.Joins place m n) : capturing.Joins place (f m) (f n) := by
  cases place with
  | belowRegion mode s t => exact Machine.Parallel.map hf h
  | onSource height keys? => exact Machine.CapturedIn.map hf (hatlas m) h

/-- Machines that belong together differ in their input only. -/
theorem joins_others {place : CapturePlace} {m n : Machine} (h : capturing.Joins place m n) :
    n = { m with input := n.input } := by
  cases place with
  | belowRegion mode s t => exact Machine.Parallel.others h
  | onSource height keys? => exact Machine.CapturedIn.others h

theorem stays_map {f : Machine → Machine} (hf : Machine.IgnoresInput f)
    (hatlas : ∀ m, (f m).atlas = m.atlas) (m : Machine) : m.ReopensNothing (f m) :=
  .of_eq (hatlas m) (congrArg (fun m => m.input) (hf m m.input))

instance : capturing.Lawful where
  refl := refl_of Machine.ReopensNothing
  trans _ _ _ := Machine.ReopensNothing.trans
  looksLike {place m n} h := by
    cases place with
    | belowRegion mode s t => exact Machine.Parallel.looksLike h
    | onSource height keys? => exact Machine.CapturedIn.looksLike h
  parted {place m m'} h hs := by
    cases place with
    | belowRegion mode s t => exact h
    | onSource height keys? =>
      obtain ⟨keys, hkeys, hreserved, hdropped⟩ := h
      exact ⟨keys, hkeys, ⟨hreserved.nonempty, Nat.le_trans hreserved.registered hs.nextKey⟩,
        fun hopen => hdropped (hs.keysAt hreserved hopen)⟩
  incidental hf _ _ _ h := joins_map hf.input hf.atlas h
  incidental_stays hf m := stays_map hf.input hf.atlas m
  deepen {f} _ _ _ _ h :=
    joins_map (f := fun m => { m with expansionDepth := f m.expansionDepth }) (fun _ _ => rfl)
      (fun _ => rfl) h
  deepen_stays f m :=
    stays_map (f := fun m => { m with expansionDepth := f m.expansionDepth }) (fun _ _ => rfl)
      (fun _ => rfl) m
  first_within h := nomatch h
  second_within h := nomatch h
  paced _ := ⟨fun _ _ _ => rfl, fun _ _ _ => rfl⟩
  exists_paced m := ⟨m, fun _ _ _ => rfl, fun _ _ _ => rfl⟩
  enter l place m n h := by
    refine ⟨.belowRegion l.mode m.input.sources n.input.sources, ?_⟩
    cases place with
    | belowRegion mode s t =>
      exact ⟨Machine.Parallel.inRegion h l, fun _ h' => Machine.Parallel.leaveRegion h h', False.elim⟩
    | onSource height keys? =>
      exact ⟨Machine.CapturedIn.inRegion h l,
        fun hs h' => Machine.CapturedIn.leaveRegion h hs.nextKey h', False.elim⟩
  region_stays _ _ _ h := h.leaveRegion

theorem couples_modify {f : Machine → Machine} (hf : Machine.IgnoresInput f)
    (hatlas : ∀ m, (f m).atlas = m.atlas) :
    capturing.Couples (α := PUnit) (modify f) (modify f) :=
  .update (joins_map hf hatlas) (stays_map hf hatlas)

instance : capturing.Expanding where
  raw := by
    refine .raw_of_reading (fun {place m n} h => ?_) (Machine.Reading.read (R := Machine.ReopensNothing))
    cases place with
    | belowRegion mode s t => exact .inr (Machine.Parallel.hasRead h)
    | onSource height keys? => exact Machine.CapturedIn.hasRead h
  pushTokens ts := by
    refine .update (fun {place m n} h => ?_) (Machine.ReopensNothing.push · ts)
    cases place with
    | belowRegion mode s t => exact Machine.Parallel.pushTokens h ts
    | onSource height keys? => exact Machine.CapturedIn.withInput h (h.sources.pushAll ts)
  openSource origin content := by
    refine .update (fun {place m n} h => ?_) (Machine.ReopensNothing.openSource · origin content)
    cases place with
    | belowRegion mode s t => exact Machine.Parallel.openSource h origin content
    | onSource height keys? => exact Machine.CapturedIn.openSource h origin content
  endInput := by
    refine .update (fun {place m n} h => ?_)
      (Machine.Unfolding.endInput (R := Machine.ReopensNothing))
    cases place with
    | belowRegion mode s t => exact Machine.Parallel.leaveFile h
    | onSource height keys? => exact Machine.CapturedIn.leaveFile h
  openBranch _ := couples_modify (fun _ _ => rfl) fun _ => rfl
  leave t d h := by
    refine .leave t d (fun {place m n} h => ?_) (couples_modify (fun _ _ => rfl) fun _ => rfl) h
    rw [joins_others h]
  count := by
    refine .count_of_level (fun {place m n} h => ?_) (couples_modify (fun _ _ => rfl) fun _ => rfl)
    rw [joins_others h]
  nested t? ha := by
    refine ha.nested_of_level (fun {place m n} h => ?_) t?
    rw [joins_others h]

end capturing

/-! ### Both ways to expand a token -/

/-- If the topmost source is a file, it is registered, and it is still open on the second machine. -/
def Machine.KeepsTopFile (m m' : Machine) : Prop :=
  ∀ s below keys, m.input.sources = s :: below → s.keys? = some keys →
    keys.ReservedIn m.atlas ∧ Input.keysAt below.length m'.input.sources = some keys

namespace Run

variable {t : Token} {m : Machine} {levels : Nat}

/-- A token that is put back can be expanded in place. -/
theorem expandNext_push (hm : m.Readable) (henabled : m.input.expansionEnabled = true)
    (hcan : m.scopes.bindings.canExpand t = true) :
    Stream.expandNext (m.push [t]) =
      ((expand t m).1.map fun _ => true,
        match (expand t m).1 with
        | .ok (some held) => (expand t m).2.push [held]
        | _ => (expand t m).2) := by
  unfold Stream.expandNext
  rw [bind_of_ok (raw_push hm), push_nil hm]
  dsimp only
  rw [get_bind_eval, henabled, hcan, Bool.and_self, if_pos rfl, bind_eval]
  rcases expand t m with ⟨halt | _ | held, m'⟩
  · rfl
  · rfl
  · show ((pushBack held >>= fun _ => pure true : Run Bool) m') = _
    rw [bind_of_ok (pushBack_eval held m')]
    rfl

/-- **A token can be expanded in place, or expanded and put back.**

Expansion stops with the same failure both ways, or with none. If the file in which it begins is still
open afterwards, the machines differ at most in the input; and they do not differ at all when what the
token expands to has been put in front of the input, unless it was to be read after a file that the
expansion has opened. -/
theorem expandNext_eq_expandOnce (hready : m.Ready levels) (hm : m.Readable)
    (henabled : m.input.expansionEnabled = true) (hcan : m.scopes.bindings.canExpand t = true)
    (hopen : m.KeepsTopFile (Stream.expandNext (m.push [t])).2) :
    ∃ i : Input,
      Stream.expandNext (m.push [t]) =
          ((expandOnce t m).1.map fun _ => true, { (expandOnce t m).2 with input := i }) ∧
        (expandOnce t m).1 ≠ .ok none ∧
        ∀ v, (expandOnce t m).1 = .ok (some v) →
          v = [] ∨ (expandOnce t m).2.input.sources.length = m.input.sources.length →
          { (expandOnce t m).2 with input := i } = (expandOnce t m).2.push v := by
  obtain ⟨s, below, hs⟩ := List.exists_cons_of_ne_nil hm.sources
  have hcaptured : m.CapturedIn below.length s.keys? m.capturing := by
    refine ⟨rfl, ?_, fun keys hkeys => (hopen s below keys hs hkeys).1⟩
    show Input.Captured below.length s.keys? m.input.sources ({ kind := .capture } :: m.input.sources)
    rw [hs]
    exact .of_keysOf rfl rfl rfl
  have hcouples : capturing.Couples (expand t) (expand t) := respects_expand (P := capturing.Coupled) t
  have hmeets := hcouples.meets (i := .onSource below.length s.keys?) hcaptured
  have hfinishes := finishes_expand t m hready
  have hfinishes' := finishes_expand t m.capturing (hready.of_continues (continues_capturing m))
  rw [expandNext_push hm henabled hcan] at hopen ⊢
  rw [expandOnce_of_canExpand hcan]
  cases hA : expand t m with
  | mk r m' =>
    cases hB : expand t m.capturing with
    | mk r' n' =>
      rw [hA] at hopen
      rw [hA, hB] at hmeets
      cases hmeets with
      | same r h =>
        obtain ⟨j, rfl, hsources⟩ := h.exists_eq
        obtain ⟨ts, z, htake, hfront⟩ := hsources.takeCapture
        have hlength : m.input.sources.length = below.length + 1 := congrArg List.length hs
        unfold Machine.released
        rw [hlength, htake]
        rcases r with halt | held
        · exact ⟨m'.input, rfl, nofun, nofun⟩
        · -- what is captured comes first, and then the token that is held
          have hpush : ts = [] ∨ z.length = below.length + 1 →
              Machine.push { m' with input := ⟨z⟩ } ts = m' := fun h =>
            congrArg (fun i : Input => { m' with input := i }) (hfront h)
          cases held with
          | none =>
            refine ⟨m'.input, rfl, nofun, fun v hv hor => ?_⟩
            cases hv
            exact (hpush hor).symm
          | some u =>
            refine ⟨(m'.push [u]).input, rfl, nofun, fun v hv hor => ?_⟩
            cases hv
            have hor' : ts = [] ∨ z.length = below.length + 1 := .inr (hor.resolve_left (by simp))
            show m'.push [u] = Machine.push _ ([u] ++ ts)
            rw [← push_push, hpush hor']
      | first hhalt m' q => exact absurd hhalt (hfinishes.of_error hA)
      | second hhalt p n' => exact absurd hhalt (hfinishes'.of_error hB)
      | parted hdropped q =>
        -- the file would not be open
        obtain ⟨keys, hkeys, hreserved, hdropped⟩ := hdropped
        have hstill := (hopen s below keys hs hkeys).2
        rcases r with halt | _ | u
        · exact absurd hstill hdropped
        · exact absurd hstill hdropped
        · exact absurd ((Machine.ReopensNothing.push m' [u]).keysAt hreserved hstill) hdropped

/-- After `\expandafter`, a letter and a condition in a file, the letter is put back. -/
theorem expandNext_eq_expandOnce_letter :
    let t : Token := .controlSequence "expandafter" none
    let letter : Token := .char .letter 'a' none
    let file : InputSource :=
      { pending := .ofList [letter, .controlSequence "iftrue" none, .char .letter 'b' none]
        kind := .file (.start [] ⟨0, 1⟩ false) }
    let m : Machine :=
      { input := ⟨[file, { kind := .bottom }]⟩
        atlas := { nextKey := 1 }
        scopes.bindings := .ofList [(.controlSequence "expandafter", .expansion .expandAfter),
          (.controlSequence "iftrue", .expansion .ifTrue)] }
    m.Ready 501 ∧ m.Readable ∧ m.input.expansionEnabled = true ∧
      m.scopes.bindings.canExpand t = true ∧
      m.KeepsTopFile (Stream.expandNext (m.push [t])).2 ∧
      ∃ m', expandOnce t m = (.ok (some [letter]), m') ∧
        Stream.expandNext (m.push [t]) = (.ok true, m'.push [letter]) := by
  intro t letter file m
  have hready : m.Ready 501 := by
    refine ⟨Input.accounted_cons.2 ⟨fun lexer hl => ?_, Input.accounted_cons.2 ⟨fun lexer hl => ?_, ?_⟩⟩,
      by decide, by decide⟩
    · cases hl
      exact .start _ _ _
    · cases hl
    · exact List.forall_mem_nil _
  have hm : m.Readable := ⟨rfl, nofun⟩
  have hstill : Input.keysAt 1 (Stream.expandNext (m.push [t])).2.input.sources = some ⟨0, 1⟩ := by
    decide +kernel
  have hopen : m.KeepsTopFile (Stream.expandNext (m.push [t])).2 := by
    intro s below keys hs hkeys
    obtain ⟨rfl, rfl⟩ := List.cons.inj hs
    cases hkeys
    exact ⟨⟨by decide, by decide⟩, hstill⟩
  have hcan : m.scopes.bindings.canExpand t = true := by decide +kernel
  have hresult : (expandOnce t m).1 = .ok (some [letter]) := by with_unfolding_all rfl
  have hlength : (expandOnce t m).2.input.sources.length = m.input.sources.length := by decide +kernel
  obtain ⟨i, hnext, -, hfront⟩ := expandNext_eq_expandOnce hready hm rfl hcan hopen
  refine ⟨hready, hm, rfl, hcan, hopen, ?_⟩
  generalize expandOnce t m = p at hnext hresult hlength hfront
  obtain ⟨r, m'⟩ := p
  cases hresult
  exact ⟨m', rfl, hnext.trans (congrArg (Prod.mk _) (hfront [letter] rfl (.inr hlength)))⟩

end Run

end Gullet
