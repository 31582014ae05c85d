import Gullet.Input
import Gullet.Proofs.Lexer.Accounting

/-!
# What is taken from the input

As long as nothing is expanded, an action takes tokens from the front of the input and may put some of
them back. Here is a measure for that. It is enough to know which tokens were taken in all, as long as
no file is read on: reading on in a file leaves fewer bytes, whatever becomes of the tokens.
-/

namespace Gullet

/-- The number of bytes that are still to be read in a source. -/
def InputSource.unread (s : InputSource) : Nat :=
  match s.kind with
  | .file lexer => lexer.remaining
  | _ => 0

namespace Input

/-- The number of bytes that are still to be read. -/
def unread : List InputSource → Nat
  | [] => 0
  | s :: below => s.unread + unread below

/-- The pending tokens of all sources, next one first. -/
def upcoming (sources : List InputSource) : List Token := sources.flatMap (·.pending.tokens)

/-- The sources below the topmost region, which cannot be read. -/
def beyond : List InputSource → List InputSource
  | [] => []
  | s :: below =>
    match s.kind with
    | .region _ => below
    | _ => beyond below

/-- All lexers count right. -/
def Accounted (sources : List InputSource) : Prop :=
  ∀ s ∈ sources, ∀ lexer, s.kind = .file lexer → lexer.Accounted

theorem accounted_cons {s : InputSource} {below : List InputSource} :
    Accounted (s :: below) ↔
      (∀ lexer, s.kind = .file lexer → lexer.Accounted) ∧ Accounted below :=
  List.forall_mem_cons

@[simp] theorem unread_cons (s : InputSource) (below : List InputSource) :
    unread (s :: below) = s.unread + unread below := rfl

@[simp] theorem upcoming_cons (s : InputSource) (below : List InputSource) :
    upcoming (s :: below) = s.pending.tokens ++ upcoming below := rfl

@[simp] theorem unread_append (above below : List InputSource) :
    unread (above ++ below) = unread above + unread below := by
  induction above with
  | nil => exact (Nat.zero_add _).symm
  | cons s above ih => rw [List.cons_append, unread_cons, ih, unread_cons, Nat.add_assoc]

@[simp] theorem upcoming_append (above below : List InputSource) :
    upcoming (above ++ below) = upcoming above ++ upcoming below := by
  simp [upcoming]

theorem size_eq (i : Input) : i.size = unread i.sources + (upcoming i.sources).length := by
  unfold size
  induction i.sources with
  | nil => rfl
  | cons s below ih =>
    have hs : s.size = s.unread + s.pending.tokens.length := by
      unfold InputSource.size InputSource.unread
      rw [← s.pending.size_eq]
      cases s.kind with
      | file lexer => exact Nat.add_comm _ _
      | _ => exact (Nat.zero_add _).symm
    rw [List.foldr_cons, ih, hs, unread_cons, upcoming_cons, List.length_append]
    omega

theorem beyond_suffix (sources : List InputSource) : beyond sources <:+ sources := by
  induction sources with
  | nil => exact List.suffix_refl _
  | cons s below ih =>
    unfold beyond
    split
    · exact List.suffix_cons s below
    · exact ih.trans (List.suffix_cons s below)

/-! ### Putting tokens in front -/

/-- The tokens are put in front of the topmost source, which is made if there is none. -/
theorem sources_pushAll (i : Input) (ts : List Token) :
    i.sources = [] ∧ (i.pushAll ts).sources = [{ pending := .ofList ts, kind := .bottom }] ∨
      ∃ s below, i.sources = s :: below ∧
        (i.pushAll ts).sources = { s with pending := s.pending.pushAll ts } :: below := by
  unfold Input.pushAll mapTop
  cases i.sources with
  | nil =>
    have hpending : Pending.empty.pushAll ts = .ofList ts := Pending.ext_tokens (List.append_nil ts)
    refine .inl ⟨rfl, ?_⟩
    rw [← hpending]
  | cons s below => exact .inr ⟨s, below, rfl, rfl⟩

theorem unread_pushAll (i : Input) (ts : List Token) :
    unread (i.pushAll ts).sources = unread i.sources := by
  rcases sources_pushAll i ts with ⟨hi, h⟩ | ⟨s, below, hi, h⟩
  · rw [hi, h]
    rfl
  · rw [hi, h]
    rfl

theorem upcoming_pushAll (i : Input) (ts : List Token) :
    upcoming (i.pushAll ts).sources = ts ++ upcoming i.sources := by
  rcases sources_pushAll i ts with ⟨hi, h⟩ | ⟨s, below, hi, h⟩
  · rw [hi, h]
    rfl
  · rw [hi, h, upcoming_cons, upcoming_cons, Pending.tokens_pushAll, List.append_assoc]

theorem beyond_pushAll (i : Input) (ts : List Token) :
    beyond (i.pushAll ts).sources = beyond i.sources := by
  rcases sources_pushAll i ts with ⟨hi, h⟩ | ⟨s, below, hi, h⟩
  · rw [hi, h]
    rfl
  · rw [hi, h]
    rfl

/-! ### Taking -/

/-- In the end the given tokens have been taken, and what cannot be read is as before. If bytes of files
have been read, it only matters that there was room for the tokens. -/
structure Took (taken : List Token) (before after : List InputSource) : Prop where
  beyond : beyond after = beyond before
  size : unread after + (upcoming after).length + taken.length ≤
    unread before + (upcoming before).length
  upcoming : unread after < unread before ∨
    unread after = unread before ∧ upcoming before = taken ++ upcoming after

namespace Took

variable {ts us : List Token} {before after later : List InputSource}

theorem refl (sources : List InputSource) : Took [] sources sources :=
  ⟨rfl, Nat.le_refl _, .inr ⟨rfl, rfl⟩⟩

theorem trans (h : Took ts before after) (h' : Took us after later) :
    Took (ts ++ us) before later where
  beyond := h'.beyond.trans h.beyond
  size := by
    have hsize := h.size
    have hsize' := h'.size
    rw [List.length_append]
    omega
  upcoming := by
    rcases h.upcoming with hlt | ⟨heq, hup⟩
    · rcases h'.upcoming with hlt' | ⟨heq', -⟩ <;> exact .inl (by omega)
    · rcases h'.upcoming with hlt' | ⟨heq', hup'⟩
      · exact .inl (by omega)
      · exact .inr ⟨by omega, by rw [hup, hup', List.append_assoc]⟩

/-- Tokens that were taken last can be put back. -/
theorem pushAll {i : Input} (h : Took (ts ++ us) before i.sources) :
    Took ts before (i.pushAll us).sources := by
  obtain ⟨hbeyond, hsize, hup⟩ := h
  rw [List.length_append] at hsize
  refine ⟨(beyond_pushAll i us).trans hbeyond, ?_, ?_⟩
  · rw [unread_pushAll, upcoming_pushAll, List.length_append]
    omega
  · rw [unread_pushAll, upcoming_pushAll, ← List.append_assoc]
    exact hup

/-- What is taken from a region when it is read to its end is the whole of it. -/
theorem whole_region {p : Pending} {mode : ListMode} {below : List InputSource}
    (h : Took ts ({ pending := p, kind := .region mode } :: below) after)
    (hend : Input.upcoming after = Input.upcoming (Input.beyond after)) : ts = p.tokens := by
  have hbeyond : Input.beyond after = below := h.beyond
  obtain ⟨above, habove⟩ := beyond_suffix after
  have hunread : unread after = unread above + unread below := by
    rw [← habove, unread_append, hbeyond]
  -- no file above the region has been read on, since no file stands there
  rcases h.upcoming with hlt | ⟨-, hup⟩
  · rw [hunread, unread_cons] at hlt
    simp only [InputSource.unread] at hlt
    omega
  · rw [hend, hbeyond, upcoming_cons] at hup
    exact (List.append_cancel_right hup).symm

end Took

/-! ### Reading -/

section

variable {s s' : InputSource} {below after : List InputSource} {ts : List Token}

theorem beyond_cons (hs : ∀ mode, s.kind ≠ .region mode) : beyond (s :: below) = beyond below := by
  cases hk : s.kind with
  | region mode => exact (hs mode hk).elim
  | _ => simp [beyond, hk]

/-- What is taken from the sources below, when the topmost source has nothing pending and is read to its
end and kept. -/
theorem Took.keep (h : Took ts below after) (hs : ∀ mode, s.kind ≠ .region mode)
    (hs' : ∀ mode, s'.kind ≠ .region mode) (hp : s.pending.tokens = []) (hp' : s'.pending.tokens = [])
    (hu : s'.unread ≤ s.unread) : Took ts (s :: below) (s' :: after) where
  beyond := by rw [beyond_cons hs, beyond_cons hs', h.beyond]
  size := by
    have hsize := h.size
    simp only [unread_cons, upcoming_cons, hp, hp', List.nil_append]
    omega
  upcoming := by
    simp only [unread_cons, upcoming_cons, hp, hp', List.nil_append]
    rcases h.upcoming with hlt | ⟨heq, hup⟩
    · exact .inl (by omega)
    · by_cases hsame : s'.unread = s.unread
      · exact .inr ⟨by omega, hup⟩
      · exact .inl (by omega)

/-- The same, when the topmost source is dropped. -/
theorem Took.drop (h : Took ts below after) (hs : ∀ mode, s.kind ≠ .region mode)
    (hp : s.pending.tokens = []) : Took ts (s :: below) after where
  beyond := by rw [beyond_cons hs, h.beyond]
  size := by
    have hsize := h.size
    simp only [unread_cons, upcoming_cons, hp, List.nil_append]
    omega
  upcoming := by
    simp only [unread_cons, upcoming_cons, hp, List.nil_append]
    rcases h.upcoming with hlt | ⟨heq, hup⟩
    · exact .inl (by omega)
    · by_cases hzero : s.unread = 0
      · exact .inr ⟨by omega, hup⟩
      · exact .inl (by omega)

/-- The next pending token is taken. -/
theorem took_pop {t : Token} {pending : Pending} (h : s.pending.pop? = some (t, pending)) :
    Took [t] (s :: below) ({ s with pending } :: below) := by
  have htokens := Pending.tokens_of_pop? h
  have hunread : InputSource.unread { s with pending } = s.unread := rfl
  refine ⟨rfl, ?_, .inr ⟨rfl, ?_⟩⟩
  · simp only [unread_cons, upcoming_cons, hunread, htokens, List.length_append, List.length_cons,
      List.length_nil]
    omega
  · simp only [upcoming_cons, htokens, List.cons_append, List.nil_append]

/-- A token is read from a file. -/
theorem took_next (t : Token) (hs : ∀ mode, s.kind ≠ .region mode)
    (hs' : ∀ mode, s'.kind ≠ .region mode) (hp : s'.pending = s.pending)
    (hu : s'.unread < s.unread) : Took [t] (s :: below) (s' :: below) := by
  refine ⟨?_, ?_, .inl ?_⟩
  · rw [beyond_cons hs', beyond_cons hs]
  · simp only [unread_cons, upcoming_cons, hp, List.length_append, List.length_singleton]
    omega
  · rw [unread_cons, unread_cons]
    exact Nat.add_lt_add_right hu _

/-- Taking the comments leaves the bytes of a lexer alone. -/
theorem takeComments_eq (report : Bool) (lexer : Lexer) :
    ∃ comments kept, (if report then lexer.takeComments else ([], lexer)) = (comments, kept) ∧
      kept.remaining = lexer.remaining ∧ (kept = lexer ∨ kept = lexer.takeComments.2) := by
  cases report with
  | false => exact ⟨_, _, rfl, rfl, .inl rfl⟩
  | true => exact ⟨_, _, rfl, rfl, .inr rfl⟩

end

/-- What reading a token does to the sources: it takes the token, and where there is none, nothing is left
above the sources that cannot be read. -/
structure Gives (before : List InputSource) (r : Reading) : Prop where
  took : ∀ t?, r.result = .ok t? → Took t?.toList before r.sources
  none : r.result = .ok none → upcoming r.sources = upcoming (beyond r.sources)

theorem tokens_eq_nil_of_pop? {p : Pending} (h : p.pop? = none) : p.tokens = [] :=
  (Pending.pop?_eq_none_iff p).1 h

/-- **Reading takes the token that it gives.** -/
theorem gives_read (code : Char → CatCode) (report onTop : Bool) {sources : List InputSource}
    (h : Accounted sources) : Gives sources (read code report onTop sources) := by
  induction sources generalizing onTop with
  | nil =>
    refine ⟨?_, fun _ => rfl⟩
    rintro t? ⟨⟩
    exact .refl []
  | cons s below ih =>
    obtain ⟨hlexers, hrest⟩ := accounted_cons.1 h
    have hbelow (onTop : Bool) := ih onTop hrest
    unfold read
    cases hpop : s.pending.pop? with
    | some popped =>
      refine ⟨?_, nofun⟩
      rintro t? ⟨⟩
      exact took_pop hpop
    | none =>
      have hp := tokens_eq_nil_of_pop? hpop
      cases hk : s.kind with
      | region mode =>
        dsimp only
        refine ⟨?_, fun _ => by simp [beyond, hk, hp]⟩
        rintro t? ⟨⟩
        exact .refl _
      | bottom | capture =>
        dsimp only
        have hs (mode : ListMode) : s.kind ≠ .region mode := by simp [hk]
        have hr := hbelow false
        refine ⟨fun t? ht => (hr.took t? ht).keep hs hs hp hp (Nat.le_refl _), fun hn => ?_⟩
        rw [upcoming_cons, hp, beyond_cons hs, hr.none hn, List.nil_append]
      | file lexer =>
        have hs (mode : ListMode) : s.kind ≠ .region mode := by simp [hk]
        have hunread : s.unread = lexer.remaining := by simp [InputSource.unread, hk]
        obtain ⟨hle, htoken, hend⟩ := Lexer.remaining_next code (hlexers lexer hk)
        obtain ⟨comments, kept, hcomments, hkept, -⟩ := takeComments_eq report (lexer.next code).2
        have hunread' : InputSource.unread { s with kind := .file kept } = kept.remaining := rfl
        have hs' (mode : ListMode) : SourceKind.file kept ≠ .region mode := nofun
        dsimp only
        rw [hcomments]
        cases hresult : (lexer.next code).1 with
        | error e => exact ⟨nofun, nofun⟩
        | ok t? =>
          cases t? with
          | some t =>
            have hlt := htoken t hresult
            have hless : InputSource.unread { s with kind := .file kept } < s.unread := by omega
            refine ⟨?_, nofun⟩
            rintro t? ⟨⟩
            exact took_next t hs hs' rfl hless
          | none =>
            have hle : InputSource.unread { s with kind := .file kept } ≤ s.unread := by omega
            dsimp only
            split
            · have hr := hbelow true
              exact ⟨fun t? ht => (hr.took t? ht).drop hs hp, hr.none⟩
            · have hr := hbelow false
              refine ⟨fun t? ht => (hr.took t? ht).keep hs hs' hp hp hle, fun hn => ?_⟩
              rw [upcoming_cons, beyond_cons hs', hr.none hn]
              simp only [hp, List.nil_append]

/-! ### Lexers -/

/-- Every lexer among the sources has the property. -/
def EveryLexer (p : Lexer → Prop) (sources : List InputSource) : Prop :=
  ∀ s ∈ sources, ∀ lexer, s.kind = .file lexer → p lexer

section

variable {sources : List InputSource} {p : Lexer → Prop}

theorem everyLexer_cons {s : InputSource} {below : List InputSource} :
    EveryLexer p (s :: below) ↔ (∀ lexer, s.kind = .file lexer → p lexer) ∧ EveryLexer p below :=
  List.forall_mem_cons

/-- Reading changes a lexer only by a token that is read from it and comments that are taken from it. -/
theorem everyLexer_read {code : Char → CatCode} (report onTop : Bool)
    (hnext : ∀ lexer, p lexer → p (lexer.next code).2)
    (htake : ∀ lexer, p lexer → p lexer.takeComments.2) (h : EveryLexer p sources) :
    EveryLexer p (read code report onTop sources).sources := by
  induction sources generalizing onTop with
  | nil => exact h
  | cons s below ih =>
    obtain ⟨hlexers, hrest⟩ := everyLexer_cons.1 h
    unfold read
    cases hpop : s.pending.pop? with
    | some popped => exact everyLexer_cons.2 ⟨hlexers, hrest⟩
    | none =>
      cases hk : s.kind with
      | region mode => exact h
      | bottom | capture => exact everyLexer_cons.2 ⟨hlexers, ih false hrest⟩
      | file lexer =>
        have hread := hnext lexer (hlexers lexer hk)
        obtain ⟨comments, kept, hcomments, -, hkept⟩ := takeComments_eq report (lexer.next code).2
        have hfile (lexer' : Lexer) (hl : SourceKind.file kept = .file lexer') : p lexer' := by
          cases hl
          rcases hkept with rfl | rfl
          · exact hread
          · exact htake _ hread
        dsimp only
        rw [hcomments]
        split
        · exact everyLexer_cons.2 ⟨hfile, hrest⟩
        · exact everyLexer_cons.2 ⟨hfile, hrest⟩
        · dsimp only
          split
          · exact ih true hrest
          · exact everyLexer_cons.2 ⟨hfile, ih false hrest⟩

theorem everyLexer_endTopFile (hdiscard : ∀ lexer, p lexer → p lexer.discardRest)
    (h : EveryLexer p sources) : EveryLexer p (endTopFile sources) := by
  induction sources with
  | nil => exact h
  | cons s below ih =>
    obtain ⟨hlexers, hrest⟩ := everyLexer_cons.1 h
    unfold endTopFile
    split
    case h_1 lexer hk =>
      refine everyLexer_cons.2 ⟨fun lexer' hl => ?_, hrest⟩
      cases hl
      exact hdiscard lexer (hlexers lexer hk)
    case h_2 => exact everyLexer_cons.2 ⟨hlexers, ih hrest⟩

/-- A source that is no file has no lexer. -/
theorem everyLexer_bottom (pending : Pending) : EveryLexer p [{ pending, kind := .bottom }] :=
  everyLexer_cons.2 ⟨nofun, List.forall_mem_nil _⟩

theorem everyLexer_pushAll {i : Input} (h : EveryLexer p i.sources) (ts : List Token) :
    EveryLexer p (i.pushAll ts).sources := by
  rcases sources_pushAll i ts with ⟨-, hs⟩ | ⟨s, below, hi, hs⟩
  · rw [hs]
    exact everyLexer_bottom _
  · rw [hi, everyLexer_cons] at h
    rw [hs]
    exact everyLexer_cons.2 h

/-- A region is no file. -/
theorem everyLexer_region (h : EveryLexer p sources) (l : TokenList) :
    EveryLexer p (.ofList l :: sources) := everyLexer_cons.2 ⟨nofun, h⟩

end

/-! ### The counts of lexers -/

variable {sources : List InputSource}

/-- Reading keeps the counts right. -/
theorem accounted_read (code : Char → CatCode) (report onTop : Bool) (h : Accounted sources) :
    Accounted (read code report onTop sources).sources :=
  everyLexer_read (p := Lexer.Accounted) report onTop
    (fun lexer hlexer => hlexer.passes (lexer.passes_next code).1) (fun _ => id) h

theorem accounted_endTopFile (h : Accounted sources) : Accounted (endTopFile sources) :=
  everyLexer_endTopFile (p := Lexer.Accounted) (fun lexer _ => .discardRest lexer) h

theorem accounted_bottom (p : Pending) : Accounted [{ pending := p, kind := .bottom }] :=
  everyLexer_bottom p

theorem accounted_pushAll {i : Input} (h : Accounted i.sources) (ts : List Token) :
    Accounted (i.pushAll ts).sources := everyLexer_pushAll (p := Lexer.Accounted) h ts

theorem accounted_region (h : Accounted sources) (l : TokenList) :
    Accounted (.ofList l :: sources) := everyLexer_region (p := Lexer.Accounted) h l

end Input

end Gullet
