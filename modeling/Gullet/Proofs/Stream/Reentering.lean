import Gullet.Proofs.Stream.Confining
import Gullet.Proofs.Stream.Remaining

/-!
# Reading a list in two goes

When a region is closed, the tokens that were pending in it and above it are given back. This is what was
left to be read, if the files that were opened above it had been read to their end. If they are closed
as well, then it makes no difference whether the rest of the list is read in the same region or in
another one later.
-/

namespace Gullet

namespace Input

variable {code : Char → CatCode}

/-- The stream that is left above a region and in it, where no text of a file is left. -/
theorem remaining_append_region {above : List InputSource} (pending : Pending) (mode : ListMode)
    (below : List InputSource) (habove : ∀ c ∈ above, ¬c.IsRegion)
    (hread : ∀ c ∈ above, ∀ lexer, c.kind = .file lexer → lexer.items code = []) :
    remaining code (above ++ { pending, kind := .region mode } :: below) =
      (above.flatMap (·.pending.tokens) ++ pending.tokens).map .ok := by
  induction above with
  | nil => simp [remaining]
  | cons c above ih =>
    obtain ⟨hc, habove⟩ := List.forall_mem_cons.1 habove
    obtain ⟨hlexer, hread⟩ := List.forall_mem_cons.1 hread
    have hrest := ih habove hread
    obtain ⟨before, kind⟩ := c
    cases kind with
    | region mode => exact absurd ⟨mode, rfl⟩ hc
    | file lexer => simp [remaining, hlexer lexer rfl, hrest]
    | bottom => simp [remaining, hrest]
    | capture => simp [remaining, hrest]

end Input

namespace Run

variable {α β : Type}

/-- What becomes of the sources while a list is read. -/
theorem Confined.exists_sources {f : Run α} (hf : f.Confined) (l : TokenList) {m m₁ : Machine}
    {r : Except Halt α} (hm : Input.Accounted m.input.sources)
    (hd : m.expansionDepth < m.config.maxExpansionDepth) (hrun : f (m.inRegion l) = (r, m₁)) :
    (m.inRegion l).Continues m₁ ∧
      ∃ above pending below, (∀ c ∈ above, ¬c.IsRegion) ∧ below.length = m.input.sources.length ∧
        m₁.input.sources = above ++ { pending, kind := .region l.mode } :: below := by
  have hready := (Machine.ready_of_lt hm hd).inRegion hd l
  obtain ⟨r', m', n', hrun', -, hp', hc, -⟩ := hf (m.parallel_inRegion l rfl) hready hready
  obtain ⟨rfl, rfl⟩ := Prod.mk.inj (hrun.symm.trans hrun')
  obtain ⟨below, t', hspared, hgrafted⟩ := hp'.standing
  obtain ⟨above, pending, habove, hsources, -⟩ := hgrafted.exists_append
  exact ⟨hc, above, pending, below, habove, hspared.length.1, hsources⟩

/-- To close the region gives back all that was pending. -/
theorem closeAbove_append (above : List InputSource) (r : InputSource) (below : List InputSource)
    {m : Machine} (h : m.input.sources = above ++ r :: below) :
    closeAbove below.length m =
      (above.flatMap (·.pending.tokens) ++ r.pending.tokens, { m with input := ⟨below⟩ }) := by
  unfold closeAbove
  rw [h, Input.splitAt_append_cons]
  simp

/-- The list that is given back is the list of the region again. -/
theorem inRegion_of_closed {m m₁ : Machine} {l : TokenList} {pending : Pending}
    {below : List InputSource} (hdepth : m₁.expansionDepth = m.expansionDepth + 1)
    (hsources : m₁.input.sources = { pending, kind := .region l.mode } :: below) :
    Machine.inRegion { m₁ with input := ⟨below⟩, expansionDepth := m₁.expansionDepth - 1 }
      { l with tokens := pending.tokens } = m₁ := by
  have hpending : Pending.ofList pending.tokens = pending := Pending.ext_tokens rfl
  have hnested : m₁.expansionDepth - 1 + 1 = m₁.expansionDepth := by omega
  show ({ m₁ with
    input := ⟨{ pending := .ofList pending.tokens, kind := .region l.mode } :: below⟩
    expansionDepth := m₁.expansionDepth - 1 + 1 } : Machine) = m₁
  rw [hpending, hnested, ← hsources]

/-- **A list can be read in two goes.**

When `f` has read some of a list and the region is closed, what is given back is what was left to be
read, if no text is left in the files that were opened. If no source stands above the region any more,
`g` reads the rest as if the region had not been closed. -/
theorem read_in_two_goes {f : Run α} (hf : f.Operates) (g : α → Run β) (l : TokenList) {m m₁ : Machine}
    {x : α} (hm : Input.Accounted m.input.sources)
    (hd : m.expansionDepth < m.config.maxExpansionDepth) (hrun : f (m.inRegion l) = (.ok x, m₁)) :
    ∃ rest m', Run.regionKeeping l f m = (.ok (.ok x, rest), m') ∧
      ((∀ c ∈ m₁.input.sources.take (m₁.input.sources.length - m.input.sources.length), ∀ lexer,
          c.kind = .file lexer → lexer.items m₁.codeOf = []) →
        rest.tokens.map .ok = m₁.remaining) ∧
      (m₁.input.sources.length = m.input.sources.length + 1 →
        Run.regionKeeping rest (g x) m' = Run.regionKeeping l (f >>= g) m) := by
  obtain ⟨hc, above, pending, below, habove, hlength, hsources⟩ :=
    hf.confined.exists_sources l hm hd hrun
  have hclose := closeAbove_append above _ below hsources
  rw [hlength] at hclose
  refine ⟨{ l with tokens := above.flatMap (·.pending.tokens) ++ pending.tokens },
    { m₁ with input := ⟨below⟩, expansionDepth := m₁.expansionDepth - 1 }, ?_, fun hread => ?_,
    fun hopen => ?_⟩
  · rw [regionKeeping_of_lt hd, hrun, hclose, Machine.leaveRegion, hclose]
  · -- among the sources that stand above those below, the region is the last one
    have htake : m₁.input.sources.take (m₁.input.sources.length - m.input.sources.length) =
        above ++ [{ pending, kind := .region l.mode }] := by
      have hsplit := Input.splitAt_append_cons above { pending, kind := .region l.mode } below
      rw [List.splitAt_eq, ← hsources, hlength] at hsplit
      exact congrArg Prod.fst hsplit
    rw [htake] at hread
    unfold Machine.remaining
    rw [hsources]
    exact (Input.remaining_append_region pending l.mode below habove fun c hc =>
      hread c (List.mem_append_left _ hc)).symm
  · have hnone : above = [] := by
      rw [hsources] at hopen
      refine List.eq_nil_of_length_eq_zero ?_
      simp at hopen
      omega
    subst hnone
    have hdepth : m₁.expansionDepth = m.expansionDepth + 1 := hc.expansionDepth
    have hagain := inRegion_of_closed hdepth hsources
    have hd' : m₁.expansionDepth - 1 < m₁.config.maxExpansionDepth := by
      rw [hdepth, hc.config]
      exact hd
    rw [regionKeeping_of_lt hd, bind_of_ok hrun]
    show regionKeeping { l with tokens := pending.tokens } (g x) _ = _
    refine (regionKeeping_of_lt hd').trans ?_
    rw [hagain]
    unfold Machine.leaveRegion
    dsimp only
    rw [hlength]

/-- Two tokens are read, one in each go. -/
theorem read_in_two_goes_pair :
    let x : Token := .char .letter 'x' none
    let y : Token := .char .letter 'y' none
    let l : TokenList := { tokens := [x, y] }
    let m : Machine := {}
    let left : InputSource := { pending := .ofList [y], kind := .region .stack }
    let m₁ : Machine := { m.inRegion l with input := ⟨[left, { kind := .bottom }]⟩ }
    let g (t : Option Token) : Run (Option Token × Option Token) := Stream.raw >>= fun u => pure (t, u)
    Input.Accounted m.input.sources ∧ m.expansionDepth < m.config.maxExpansionDepth ∧
      Stream.raw (m.inRegion l) = (.ok (some x), m₁) ∧
      ∃ rest m', Run.regionKeeping l Stream.raw m = (.ok (.ok (some x), rest), m') ∧
        rest.tokens.map .ok = m₁.remaining ∧
        Run.regionKeeping rest (g (some x)) m' = Run.regionKeeping l (Stream.raw >>= g) m := by
  intro x y l m left m₁ g
  have hm : Input.Accounted m.input.sources := by
    refine Input.accounted_cons.2 ⟨fun lexer hl => ?_, List.forall_mem_nil _⟩
    cases hl
  have hd : m.expansionDepth < m.config.maxExpansionDepth := by decide
  have hrun : Stream.raw (m.inRegion l) = (.ok (some x), m₁) := rfl
  obtain ⟨rest, m', hfirst, hback, hagain⟩ := read_in_two_goes .raw g l hm hd hrun
  refine ⟨hm, hd, hrun, rest, m', hfirst, hback fun c hc lexer hk => ?_, hagain rfl⟩
  have hleft : c = left := List.mem_singleton.1 hc
  rw [hleft] at hk
  cases hk

end Run

end Gullet
