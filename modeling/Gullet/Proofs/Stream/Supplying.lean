import Gullet.Proofs.Input.Taking
import Gullet.Proofs.Run.Rereading
import Gullet.Proofs.Unfolding.Meanings

/-!
# What a stream supplies

A stream supplies tokens from one machine on to another one if reading with it gives them one after
another. Where they come from, files or pending tokens, does not matter. What the raw stream supplies
depends on few parts of the machine, so that the others can be changed in between.
-/

namespace Gullet

variable {s : Stream} {ts us : List Token} {t : Token} {m m' m₁ m₂ : Machine}

/-! ### Tokens one after another -/

/-- The stream gives the tokens one after another, and leads from one machine to the other. -/
def Stream.Supplies (s : Stream) : List Token → Machine → Machine → Prop
  | [], m, m' => m = m'
  | t :: ts, m, m' => ∃ m₁, s m = (.ok (some t), m₁) ∧ Supplies s ts m₁ m'

namespace Stream

theorem supplies_append :
    s.Supplies (ts ++ us) m m' ↔ ∃ m₁, s.Supplies ts m m₁ ∧ s.Supplies us m₁ m' := by
  induction ts generalizing m with
  | nil =>
    constructor
    · intro h
      exact ⟨m, rfl, h⟩
    · rintro ⟨m₁, rfl, h⟩
      exact h
  | cons t ts ih =>
    constructor
    · rintro ⟨m₂, ht, h⟩
      obtain ⟨m₁, hts, hus⟩ := ih.1 h
      exact ⟨m₁, ⟨m₂, ht, hts⟩, hus⟩
    · rintro ⟨m₁, ⟨m₂, ht, hts⟩, hus⟩
      exact ⟨m₂, ht, ih.2 ⟨m₁, hts, hus⟩⟩

theorem supplies_singleton : s.Supplies [t] m m' ↔ s m = (.ok (some t), m') := by
  constructor
  · rintro ⟨m₁, h, rfl⟩
    exact h
  · intro h
    exact ⟨m', h, rfl⟩

theorem Supplies.concat (h : s.Supplies ts m m₁) (ht : s m₁ = (.ok (some t), m')) :
    s.Supplies (ts ++ [t]) m m' := supplies_append.2 ⟨m₁, h, supplies_singleton.2 ht⟩

/-- The stream gives the tokens one after another, and then gives what it gives on the other machine. -/
def Yields (s : Stream) : List Token → Machine → Machine → Prop
  | [], m, m' => s m = s m'
  | t :: ts, m, m' => ∃ m₁, s m = (.ok (some t), m₁) ∧ Yields s ts m₁ m'

/-- What is given from one machine on is given from each that gives the same. -/
theorem Yields.of_eq (h : s m = s m₁) (hy : s.Yields ts m₁ m') : s.Yields ts m m' := by
  cases ts with
  | nil => exact h.trans hy
  | cons t ts =>
    obtain ⟨m₂, ht, hts⟩ := hy
    exact ⟨m₂, h.trans ht, hts⟩

theorem Yields.append (h : s.Yields ts m m₁) (h' : s.Yields us m₁ m') :
    s.Yields (ts ++ us) m m' := by
  induction ts generalizing m with
  | nil => exact h'.of_eq h
  | cons t ts ih =>
    obtain ⟨m₂, ht, hts⟩ := h
    exact ⟨m₂, ht, ih hts⟩

/-- What is given after the last token may be what is given on yet another machine. -/
theorem Yields.trans_eq (h : s.Yields ts m m₁) (he : s m₁ = s m') : s.Yields ts m m' := by
  have hnil : s.Yields [] m₁ m' := he
  have happend := h.append hnil
  rwa [List.append_nil] at happend

end Stream

/-! ### Reading one token -/

/-- The machine after the given comments have been told of. -/
def Machine.skipping (m : Machine) (comments : List Comment) : Machine :=
  comments.foldl (fun m c => m.emit (.skipping c)) m

theorem Machine.skipping_eq (m : Machine) (comments : List Comment) :
    m.skipping comments = { m with output := (m.skipping comments).output } := by
  induction comments generalizing m with
  | nil => rfl
  | cons c comments ih => exact ih (m.emit (.skipping c))

/-- The machine after its next token has been read. -/
def Machine.afterRead (m : Machine) : Machine :=
  let r := Input.read m.codeOf m.config.retainComments true m.input.sources
  Machine.skipping { m with input := ⟨r.sources⟩ } r.comments

namespace Run

theorem forM_skip_eval (comments : List Comment) (m : Machine) :
    (comments.forM fun c => emit (.skipping c)) m = (.ok ⟨⟩, m.skipping comments) := by
  induction comments generalizing m with
  | nil => rfl
  | cons c comments ih =>
    show (emit (.skipping c) >>= fun _ => comments.forM fun c => emit (.skipping c)) m = _
    rw [bind_of_ok (emit_eval _ m), ih]
    rfl

/-- When the signal has been given, nothing more is read. -/
theorem raw_of_raised (h : m.cancellation.raised = true) :
    Stream.raw m = (.error (.failed (.ofFault m.atlas .cancelled)), m) := by
  unfold Stream.raw
  rw [get_bind_eval, h, if_pos rfl, fail_eval]

theorem expanded_of_raised (x : Expander) (h : m.cancellation.raised = true) :
    Stream.expanded x m = (.error (.failed (.ofFault m.atlas .cancelled)), m) :=
  loop_of_error (bind_of_error (raw_of_raised h))

theorem raw_eq_ok_iff {r : Option Token} :
    Stream.raw m = (.ok r, m') ↔
      m.cancellation.raised = false ∧
        (Input.read m.codeOf m.config.retainComments true m.input.sources).result = .ok r ∧
        m' = m.afterRead := by
  unfold Stream.raw
  rw [get_bind_eval]
  cases hraised : m.cancellation.raised with
  | true =>
    constructor
    · intro h
      cases h
    · rintro ⟨h, -⟩
      cases h
  | false =>
    rw [if_neg Bool.false_ne_true, set_bind_eval, bind_of_ok (forM_skip_eval _ _)]
    cases hread : (Input.read m.codeOf m.config.retainComments true m.input.sources).result with
    | error e =>
      constructor
      · intro h
        cases h
      · rintro ⟨-, h, -⟩
        cases h
    | ok r' =>
      constructor
      · intro h
        cases h
        exact ⟨rfl, rfl, rfl⟩
      · rintro ⟨-, h, rfl⟩
        cases h
        rfl

end Run

/-- What reading a token leaves as it is. -/
theorem Machine.afterRead_eq (m : Machine) :
    m.afterRead = { m with
      input := ⟨(Input.read m.codeOf m.config.retainComments true m.input.sources).sources⟩
      output := m.afterRead.output } := skipping_eq _ _

theorem Machine.sources_afterRead (m : Machine) :
    m.afterRead.input.sources =
      (Input.read m.codeOf m.config.retainComments true m.input.sources).sources :=
  congrArg (·.input.sources) m.afterRead_eq

/-! ### What reading does not touch -/

/-- The function changes nothing that reading a token depends on or changes. -/
structure Machine.Aside (f : Machine → Machine) : Prop where
  cancellation (m : Machine) : (f m).cancellation = m.cancellation
  config (m : Machine) : (f m).config = m.config
  codes (m : Machine) : (f m).codeOf = m.codeOf
  input (m : Machine) : (f m).input = m.input
  withInput (m : Machine) (input : Input) : f { m with input } = { f m with input }
  emit (m : Machine) (c : Comment) : f (m.emit (.skipping c)) = (f m).emit (.skipping c)

namespace Machine.Aside

variable {f g : Machine → Machine}

theorem comp (hf : Aside f) (hg : Aside g) : Aside fun m => f (g m) where
  cancellation m := (hf.cancellation _).trans (hg.cancellation m)
  config m := (hf.config _).trans (hg.config m)
  codes m := (hf.codes _).trans (hg.codes m)
  input m := (hf.input _).trans (hg.input m)
  withInput m input := by rw [hg.withInput, hf.withInput]
  emit m c := by rw [hg.emit, hf.emit]

theorem skipping (hf : Aside f) (m : Machine) (comments : List Comment) :
    f (m.skipping comments) = (f m).skipping comments := by
  induction comments generalizing m with
  | nil => rfl
  | cons c comments ih =>
    show f ((m.emit (.skipping c)).skipping comments) = ((f m).emit (.skipping c)).skipping comments
    rw [ih, hf.emit]

theorem raw (hf : Aside f) {r : Option Token} (h : Stream.raw m = (.ok r, m')) :
    Stream.raw (f m) = (.ok r, f m') := by
  obtain ⟨hraised, hread, rfl⟩ := Run.raw_eq_ok_iff.1 h
  refine Run.raw_eq_ok_iff.2 ⟨?_, ?_, ?_⟩
  · rw [hf.cancellation]
    exact hraised
  · rw [hf.codes, hf.config, hf.input]
    exact hread
  · have hsame : Input.read (f m).codeOf (f m).config.retainComments true (f m).input.sources =
        Input.read m.codeOf m.config.retainComments true m.input.sources := by
      rw [hf.codes, hf.config, hf.input]
    unfold afterRead
    rw [hsame]
    dsimp only
    rw [hf.skipping, hf.withInput]

theorem supplies (hf : Aside f) (h : Stream.raw.Supplies ts m m') :
    Stream.raw.Supplies ts (f m) (f m') := by
  induction ts generalizing m with
  | nil => exact congrArg f h
  | cons t ts ih =>
    obtain ⟨m₁, ht, hts⟩ := h
    exact ⟨f m₁, hf.raw ht, ih hts⟩

end Machine.Aside

/-! ### What a token that was read leads to -/

namespace Run

/-- Where a token was read, there are sources. -/
theorem sources_ne_nil_of_read (code : Char → CatCode) (report onTop : Bool)
    {sources : List InputSource}
    (h : (Input.read code report onTop sources).result = .ok (some t)) :
    (Input.read code report onTop sources).sources ≠ [] := by
  induction sources generalizing onTop with
  | nil => cases h
  | cons s below ih =>
    unfold Input.read at h ⊢
    cases hpop : s.pending.pop? with
    | some popped => exact List.cons_ne_nil _ _
    | none =>
      simp only [hpop] at h
      cases hk : s.kind with
      | region mode => exact List.cons_ne_nil _ _
      | bottom => exact List.cons_ne_nil _ _
      | capture => exact List.cons_ne_nil _ _
      | file lexer =>
        simp only [hk] at h
        dsimp only
        split
        · exact List.cons_ne_nil _ _
        · exact List.cons_ne_nil _ _
        · rename_i hresult
          simp only [hresult] at h
          split
          · rename_i htop
            rw [if_pos htop] at h
            exact ih true h
          · exact List.cons_ne_nil _ _

theorem readable_of_raw (h : Stream.raw m = (.ok (some t), m')) : m'.Readable := by
  obtain ⟨hraised, hread, rfl⟩ := raw_eq_ok_iff.1 h
  refine ⟨?_, ?_⟩
  · rw [Machine.afterRead_eq]
    exact hraised
  · rw [Machine.sources_afterRead]
    exact sources_ne_nil_of_read _ _ _ hread

/-- A token that is put back is read again. -/
theorem raw_of_pushBack (h : Stream.raw m = (.ok (some t), m')) :
    Stream.raw (m'.push [t]) = (.ok (some t), m') := by
  have hm' := readable_of_raw h
  rw [raw_push hm', push_nil hm']

/-- A token that the file on top of the input gives is read. -/
theorem raw_of_next {lexer lexer' : Lexer} {below : List InputSource}
    (hraised : m.cancellation.raised = false) (hcomments : m.config.retainComments = false)
    (hsources : m.input.sources = { kind := .file lexer } :: below)
    (hnext : lexer.next m.codeOf = (.ok (some t), lexer')) :
    Stream.raw m =
      (.ok (some t), { m with input := ⟨{ kind := .file lexer' } :: below⟩ }) := by
  have hread : Input.read m.codeOf m.config.retainComments true m.input.sources =
      { result := .ok (some t), sources := { kind := .file lexer' } :: below } := by
    rw [hsources, hcomments, Input.read]
    simp only [hnext]
    rfl
  have hafter : m.afterRead = { m with input := ⟨{ kind := .file lexer' } :: below⟩ } := by
    unfold Machine.afterRead
    rw [hread]
    rfl
  exact raw_eq_ok_iff.2 ⟨hraised, by rw [hread], hafter.symm⟩

/-! ### Taking a token or putting it back -/

theorem pushBack_eval (t : Token) (m : Machine) : pushBack t m = (.ok ⟨⟩, m.push [t]) := by
  have hpush : m.push [t] = { m with input := m.input.push t } := by
    unfold Machine.push
    rw [Input.push_eq_pushAll]
  rw [hpush]
  rfl

theorem take?_of_some {α : Type} {p : TokenValue → Option α} {a : α}
    (h : s m = (.ok (some t), m')) (hp : p t.value = some a) : s.take? p m = (.ok (some a), m') := by
  unfold Stream.take?
  rw [bind_of_ok h]
  dsimp only
  rw [hp]
  rfl

theorem take?_of_none {α : Type} {p : TokenValue → Option α} (h : s m = (.ok (some t), m'))
    (hp : p t.value = none) : s.take? p m = (.ok none, m'.push [t]) := by
  unfold Stream.take?
  rw [bind_of_ok h]
  dsimp only
  rw [hp]
  dsimp only
  rw [bind_of_ok (pushBack_eval t m')]
  rfl

/-- At the end of a stream nothing is taken. -/
theorem take?_of_end {α : Type} {p : TokenValue → Option α} (h : s m = (.ok none, m')) :
    s.take? p m = (.ok none, m') := by
  unfold Stream.take?
  rw [bind_of_ok h]
  rfl

theorem nextOr_of_some (h : s m = (.ok (some t), m')) (during : Activity) :
    s.nextOr during m = (.ok t, m') := by
  unfold Stream.nextOr
  rw [bind_of_ok h]
  rfl

/-- A token that is no space is put back after the spaces before it have been skipped. -/
theorem skipSpaces_of_some (h : s m = (.ok (some t), m')) (ht : t.value.isSpace = false) :
    s.skipSpaces m = (.ok ⟨⟩, m'.push [t]) := by
  have htake : s.takeSpace m = (.ok false, m'.push [t]) := by
    unfold Stream.takeSpace
    rw [bind_of_ok (take?_of_none h (by rw [ht]; rfl))]
    rfl
  refine loop_of_answer ?_
  rw [bind_of_ok htake]
  rfl

/-- A token that is no space is the first one that is none. -/
theorem nextNonSpace_of_some (h : s m = (.ok (some t), m')) (ht : t.value.isSpace = false)
    (during : Activity) : s.nextNonSpace during m = (.ok t, m') := by
  refine loop_of_answer ?_
  rw [bind_of_ok (nextOr_of_some h during), ht]
  rfl

/-! ### Progress -/

theorem accounted_of_raw {r : Option Token} (h : Stream.raw m = (.ok r, m'))
    (hm : Input.Accounted m.input.sources) : Input.Accounted m'.input.sources := by
  obtain ⟨-, -, rfl⟩ := raw_eq_ok_iff.1 h
  rw [Machine.sources_afterRead]
  exact Input.accounted_read _ _ _ hm

theorem Progress.trans (h : Progress m m₁) (h' : Progress m₁ m') : Progress m m' := by
  unfold Progress at h h' ⊢
  omega

/-- To read a token is progress. -/
theorem progress_of_raw (h : Stream.raw m = (.ok (some t), m'))
    (hm : Input.Accounted m.input.sources) : Progress m m' := by
  obtain ⟨-, hread, rfl⟩ := raw_eq_ok_iff.1 h
  have hsize := ((Input.gives_read m.codeOf m.config.retainComments true hm).took _ hread).size
  rw [← Machine.sources_afterRead, ← Input.size_eq, ← Input.size_eq, Option.toList_some,
    List.length_singleton] at hsize
  have hleft : m.afterRead.expansionsLeft = m.expansionsLeft :=
    congrArg (·.expansionsLeft) m.afterRead_eq
  exact .inr ⟨hleft, by omega⟩

theorem eq_of_supplies (h : Stream.raw.Supplies ts m m') :
    m' = { m with input := m'.input, output := m'.output } := by
  induction ts generalizing m with
  | nil =>
    obtain rfl : m = m' := h
    rfl
  | cons t ts ih =>
    obtain ⟨m₁, ht, hts⟩ := h
    obtain ⟨-, -, rfl⟩ := raw_eq_ok_iff.1 ht
    have hrest := ih hts
    rw [Machine.afterRead_eq] at hrest
    exact hrest

/-- To read some tokens is progress. -/
theorem progress_of_supplies (h : Stream.raw.Supplies ts m m') (hts : ts ≠ [])
    (hm : Input.Accounted m.input.sources) : Progress m m' := by
  induction ts generalizing m with
  | nil => exact absurd rfl hts
  | cons t ts ih =>
    obtain ⟨m₁, ht, hrest⟩ := h
    have hfirst := progress_of_raw ht hm
    cases ts with
    | nil =>
      obtain rfl : m₁ = m' := hrest
      exact hfirst
    | cons t' ts => exact hfirst.trans (ih hrest (List.cons_ne_nil _ _) (accounted_of_raw ht hm))

end Run

/-- A machine with the given bindings whose lexers count right, as those of every machine do that can be
reached. -/
structure Machine.Steady (b : Bindings) (m : Machine) : Prop where
  bindings : m.scopes.bindings = b
  accounted : Input.Accounted m.input.sources

namespace Machine.Steady

variable {b : Bindings}

theorem raw (hm : m.Steady b) {r : Option Token} (h : Stream.raw m = (.ok r, m')) : m'.Steady b where
  bindings := by
    obtain ⟨-, -, rfl⟩ := Run.raw_eq_ok_iff.1 h
    rw [afterRead_eq]
    exact hm.bindings
  accounted := Run.accounted_of_raw h hm.accounted

theorem supplies (hm : m.Steady b) (h : Stream.raw.Supplies ts m m') : m'.Steady b := by
  induction ts generalizing m with
  | nil =>
    obtain rfl : m = m' := h
    exact hm
  | cons t ts ih =>
    obtain ⟨m₁, ht, hts⟩ := h
    exact ih (hm.raw ht) hts

end Machine.Steady

/-! ### Reading on -/

/-- The stream gives the tokens one after another, and to read each of them is progress. -/
def Stream.Feeds (s : Stream) : List Token → Machine → Machine → Prop
  | [], m, m' => m = m'
  | t :: ts, m, m' => ∃ m₁, s m = (.ok (some t), m₁) ∧ Run.Progress m m₁ ∧ Feeds s ts m₁ m'

/-- Tokens that the stream gives as the raw one does are progress. -/
theorem Stream.feeds_of_raw {b : Bindings}
    (hs : ∀ t ∈ ts, ∀ m m', raw m = (.ok (some t), m') → s m = (.ok (some t), m'))
    (hm : m.Steady b) (h : raw.Supplies ts m m') : s.Feeds ts m m' := by
  induction ts generalizing m with
  | nil => exact h
  | cons t ts ih =>
    obtain ⟨m₁, ht, hrest⟩ := h
    obtain ⟨hfirst, hs⟩ := List.forall_mem_cons.1 hs
    exact ⟨m₁, hfirst m m₁ ht, Run.progress_of_raw ht hm.accounted, ih hs (hm.raw ht) hrest⟩

/-- A stream that takes what it gives makes progress with each token, whatever it expands for it. -/
theorem Stream.feeds_of_takes {levels : Nat} (hs : s.Takes levels) (hm : m.Ready levels)
    (h : s.Supplies ts m m') : s.Feeds ts m m' := by
  induction ts generalizing m with
  | nil => exact h
  | cons t ts ih =>
    obtain ⟨m₁, ht, hrest⟩ := h
    obtain ⟨htook, -⟩ := (hs m hm).of_ok ht
    exact ⟨m₁, ht, htook.progress (List.cons_ne_nil t []),
      ih (hm.of_continues htook.continues) hrest⟩

theorem Stream.Feeds.supplies (h : s.Feeds ts m m') : s.Supplies ts m m' := by
  induction ts generalizing m with
  | nil => exact h
  | cons t ts ih =>
    obtain ⟨m₁, ht, -, hrest⟩ := h
    exact ⟨m₁, ht, ih hrest⟩

/-- A loop reads on over tokens of which each leads to another round. -/
theorem Run.loop_over {α β : Type} {step : β → Run (β ⊕ α)} (next : β → Token → β)
    (hstep : ∀ t ∈ ts, ∀ b m m', s m = (.ok (some t), m') → step b m = (.ok (.inl (next b t)), m'))
    (h : s.Feeds ts m m') (b : β) : loop step b m = loop step (ts.foldl next b) m' := by
  induction ts generalizing m b with
  | nil =>
    obtain rfl : m = m' := h
    rfl
  | cons t ts ih =>
    obtain ⟨m₁, ht, hprogress, hrest⟩ := h
    obtain ⟨hfirst, hstep⟩ := List.forall_mem_cons.1 hstep
    rw [loop_of_progress (hfirst b m m₁ ht) hprogress, ih hstep hrest]
    rfl

/-- Spaces that come next are skipped. -/
theorem Run.skipSpaces_over {spaces : List Token} (hspaces : ∀ t ∈ spaces, t.value.isSpace = true)
    (h : s.Feeds spaces m m') : s.skipSpaces m = s.skipSpaces m' := by
  refine loop_over (fun _ _ => ()) (fun t ht _ m m' h => ?_) h ()
  have htake : s.takeSpace m = (.ok true, m') := by
    unfold Stream.takeSpace
    rw [bind_of_ok (take?_of_some h (if_pos (hspaces t ht)))]
    rfl
  exact bind_of_ok htake

/-! ### Looking at the next token -/

/-- The machine after its next token, which leads to another machine, has been read and put back, if it
was looked at. -/
def Machine.peeked (m : Machine) (looked : Bool) (t : Token) (m' : Machine) : Machine :=
  if looked then m'.push [t] else m

/-- The next token stays the same. -/
theorem Run.raw_peeked (looked : Bool) (h : Stream.raw m = (.ok (some t), m')) :
    Stream.raw (m.peeked looked t m') = (.ok (some t), m') := by
  cases looked with
  | false => exact h
  | true => exact Run.raw_of_pushBack h

/-- What was supplied before a token was looked at is supplied afterwards. -/
theorem Stream.supplies_peeked (h : raw.Supplies (t :: ts) m m') :
    ∃ m₁, raw m = (.ok (some t), m₁) ∧
      ∀ looked, raw.Supplies (t :: ts) (m.peeked looked t m₁) m' := by
  obtain ⟨m₁, ht, hts⟩ := h
  exact ⟨m₁, ht, fun looked => ⟨m₁, Run.raw_peeked looked ht, hts⟩⟩

namespace Machine

theorem Aside.peeked {f : Machine → Machine} (hf : Aside f) (looked : Bool) :
    f (m.peeked looked t m') = (f m).peeked looked t (f m') := by
  cases looked with
  | false => rfl
  | true =>
    show f { m' with input := m'.input.pushAll [t] } = { f m' with input := (f m').input.pushAll [t] }
    rw [hf.withInput, hf.input]

theorem peeked_eq (looked : Bool) (h : Stream.raw m = (.ok (some t), m')) :
    m.peeked looked t m' =
      { m with
        input := (m.peeked looked t m').input
        output := (m.peeked looked t m').output } := by
  cases looked with
  | false => rfl
  | true =>
    have hsame := Run.eq_of_supplies (Stream.supplies_singleton.2 h)
    calc m'.push [t] = { m' with input := (m'.push [t]).input } := rfl
      _ = { m with input := (m'.push [t]).input, output := m'.output } := by rw [hsame]

theorem Steady.peeked {b : Bindings} (hm : m.Steady b) (looked : Bool)
    (h : Stream.raw m = (.ok (some t), m')) : (m.peeked looked t m').Steady b := by
  cases looked with
  | false => exact hm
  | true =>
    have hm' := hm.raw h
    exact ⟨hm'.bindings, Input.accounted_pushAll hm'.accounted [t]⟩

end Machine

/-! ### Tokens in front of the input -/

/-- The raw stream supplies tokens that were pushed. -/
theorem Stream.supplies_push {m : Machine} (hm : m.Readable) (ts : List Token) :
    raw.Supplies ts (m.push ts) m := by
  induction ts with
  | nil => exact Run.push_nil hm
  | cons t ts ih => exact ⟨m.push ts, Run.raw_push hm, ih⟩

/-- A control sequence that belongs to no source. -/
def Token.named (name : String) : Token := ⟨.command (.controlSequence name), none⟩

namespace Machine

/-- The standard machine with a place for tokens. -/
def ready : Machine := standard.push []

theorem readable_ready : ready.Readable := ⟨rfl, List.cons_ne_nil _ _⟩

theorem accounted_ready (ts : List Token) : Input.Accounted (ready.push ts).input.sources :=
  Input.accounted_pushAll (Input.accounted_pushAll (fun _ h => absurd h List.not_mem_nil) []) ts

end Machine

end Gullet
