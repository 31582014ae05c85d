import Gullet.Proofs.Input.Remaining
import Gullet.Proofs.Stream.Supplying

/-!
# Operations on the remaining stream

On the remaining stream the operations of the unexpanded stream are those of a list: to read a token
takes the head away, and to put tokens back adds them in front. So whatever is done with the unexpanded
stream, the stack of sources cannot be told from that list.
-/

namespace Gullet

open Lexer (Item)

namespace Machine

variable {m m' : Machine}

/-- The stream that is left to be read. -/
def remaining (m : Machine) : List Item := Input.remaining m.codeOf m.input.sources

/-- How the run stops where the input does not lex. -/
def halt (m : Machine) (e : LexError) : Halt := e.halt m.atlas

namespace SameButInput

theorem push (m : Machine) (ts : List Token) : m.SameButInput (m.push ts) := rfl

theorem afterRead (m : Machine) : m.SameButInput m.afterRead := by
  have h := m.afterRead_eq
  rw [← Machine.sources_afterRead] at h
  exact h

theorem raised (h : m.SameButInput m') : m'.cancellation.raised = m.cancellation.raised := by
  rw [h]

theorem codeOf (h : m.SameButInput m') : m'.codeOf = m.codeOf := by
  rw [h]
  rfl

theorem halt (h : m.SameButInput m') : m'.halt = m.halt := by
  rw [h]
  rfl

end SameButInput

theorem remaining_push (m : Machine) (ts : List Token) :
    (m.push ts).remaining = ts.map .ok ++ m.remaining :=
  Input.remaining_pushAll m.input ts

end Machine

namespace Stream

variable {m m' : Machine} {t : Token}

/-- What is read from a stream: its head, if it has one. -/
def head : List Item → Except LexError (Option Token)
  | [] => .ok none
  | .ok t :: _ => .ok (some t)
  | .error e :: _ => .error e

theorem head_map_ok (ts : List Token) : head (ts.map .ok) = .ok ts.head? := by
  cases ts <;> rfl

/-! ### Single operations -/

/-- Where nothing stops the run, reading gives what the sources give. -/
theorem raw_eval (hm : m.cancellation.raised = false) :
    raw m =
      ((Input.read m.codeOf m.config.retainComments true m.input.sources).result.mapError m.halt,
        m.afterRead) := by
  cases hresult :
      (Input.read m.codeOf m.config.retainComments true m.input.sources).result with
  | ok t? => exact Run.raw_eq_ok_iff.2 ⟨hm, hresult, rfl⟩
  | error e =>
    unfold raw
    rw [Run.get_bind_eval, hm, if_neg Bool.false_ne_true, Run.set_bind_eval,
      Run.bind_of_ok (Run.forM_skip_eval _ _), hresult, ← (Machine.SameButInput.afterRead m).halt]
    rfl

/-- Reading is stopped by a failure, or by a comment that ends before it begins. -/
theorem halt_of_raw {halt : Halt} (h : raw m = (.error halt, m')) :
    (∃ d, halt = .failed d) ∨ halt = .reversedSlice ∧
      (Input.read m.codeOf m.config.retainComments true m.input.sources).result =
        .error .reversedComment := by
  by_cases hraised : m.cancellation.raised = true
  · rw [Run.raw_of_raised hraised] at h
    cases h
    exact .inl ⟨_, rfl⟩
  · rw [raw_eval (Bool.eq_false_iff.2 hraised)] at h
    obtain ⟨hresult, -⟩ := Prod.mk.inj h
    cases hread : (Input.read m.codeOf m.config.retainComments true m.input.sources).result with
    | ok t? =>
      rw [hread] at hresult
      cases hresult
    | error e =>
      rw [hread] at hresult
      obtain rfl := Except.error.inj hresult
      cases e with
      | reversedComment => exact .inr ⟨rfl, rfl⟩
      | _ => exact .inl ⟨_, rfl⟩

/-- **To read a token takes the head of the remaining stream.** -/
theorem raw_of_remaining (hm : m.cancellation.raised = false) :
    ∃ m', raw m = ((head m.remaining).mapError m.halt, m') ∧ m'.remaining = m.remaining.tail ∧
      m.SameButInput m' := by
  have hsame := Machine.SameButInput.afterRead m
  have hafter : m.afterRead.remaining = Input.remaining m.codeOf
      (Input.read m.codeOf m.config.retainComments true m.input.sources).sources := by
    unfold Machine.remaining
    rw [hsame.codeOf, Machine.sources_afterRead]
  obtain ⟨hitems, hend⟩ :=
    Input.remaining_read m.codeOf m.config.retainComments true m.input.sources
  change m.remaining = _ at hitems
  rw [← hafter] at hitems
  rw [raw_eval hm]
  unfold Input.Reading.items at hitems
  cases hresult : (Input.read m.codeOf m.config.retainComments true m.input.sources).result with
  | error e =>
    rw [hresult] at hitems
    rw [hitems]
    exact ⟨_, rfl, rfl, hsame⟩
  | ok t? =>
    rw [hresult] at hitems
    cases t? with
    | some t =>
      rw [hitems]
      exact ⟨_, rfl, rfl, hsame⟩
    | none =>
      have hempty : m.remaining = [] := hend hresult
      have hrest : m.afterRead.remaining = [] := hitems.symm.trans hempty
      rw [hempty]
      exact ⟨_, rfl, hrest, hsame⟩

/-- At the end of the input nothing is read. -/
theorem raw_at_end (hm : m.cancellation.raised = false) (h : m.remaining = []) :
    ∃ m', raw m = (.ok none, m') ∧ m'.remaining = [] ∧ m.SameButInput m' := by
  obtain ⟨m', hraw, htail, hsame⟩ := raw_of_remaining hm
  rw [h] at hraw htail
  exact ⟨m', hraw, htail, hsame⟩

/-- A token that was read stood at the head of the remaining stream. -/
theorem remaining_of_raw (h : raw m = (.ok (some t), m')) :
    m.remaining = .ok t :: m'.remaining ∧ m.SameButInput m' := by
  obtain ⟨m₁, hraw, htail, hsame⟩ := raw_of_remaining (Run.raw_eq_ok_iff.1 h).1
  rw [h] at hraw
  obtain ⟨hhead, rfl⟩ := Prod.mk.inj hraw
  refine ⟨?_, hsame⟩
  rw [htail]
  cases hm : m.remaining with
  | nil =>
    rw [hm] at hhead
    cases hhead
  | cons item rest =>
    cases item with
    | error e =>
      rw [hm] at hhead
      cases hhead
    | ok t' =>
      rw [hm] at hhead
      cases hhead
      rfl

/-- Where nothing was read, the remaining stream is empty. -/
theorem remaining_of_raw_none (h : raw m = (.ok none, m')) :
    m.remaining = [] ∧ m'.remaining = [] ∧ m.SameButInput m' := by
  obtain ⟨m₁, hraw, htail, hsame⟩ := raw_of_remaining (Run.raw_eq_ok_iff.1 h).1
  rw [h] at hraw
  obtain ⟨hhead, rfl⟩ := Prod.mk.inj hraw
  cases hm : m.remaining with
  | nil =>
    rw [hm] at htail
    exact ⟨rfl, htail, hsame⟩
  | cons item rest =>
    rw [hm] at hhead
    cases item with
    | error e => cases hhead
    | ok t' => cases hhead

/-- A token that is looked at stays where it is. -/
theorem peek_of_raw (h : raw m = (.ok (some t), m')) : raw.peek m = (.ok (some t), m'.push [t]) := by
  unfold peek
  rw [Run.bind_of_ok h]
  dsimp only
  rw [Run.bind_of_ok (Run.pushBack_eval t m')]
  rfl

/-- To look at a token leaves the stream as it was. -/
theorem remaining_of_peek {t? : Option Token} (h : raw.peek m = (.ok t?, m')) :
    head m.remaining = .ok t? ∧ m'.remaining = m.remaining := by
  obtain ⟨next?, m₁, hraw, hrest⟩ := Run.exists_of_bind_eq_ok h
  cases next? with
  | none =>
    obtain ⟨hempty, hafter, -⟩ := remaining_of_raw_none hraw
    cases hrest
    rw [hempty]
    exact ⟨rfl, hafter⟩
  | some t =>
    have hpeek := (peek_of_raw hraw).symm.trans h
    cases hpeek
    rw [Machine.remaining_push, (remaining_of_raw hraw).1]
    exact ⟨rfl, rfl⟩

/-- To put back the token that was read leaves the stream as it was. -/
theorem remaining_of_raw_of_pushBack (h : raw m = (.ok (some t), m')) :
    ∃ m₁, Run.pushBack t m' = (.ok ⟨⟩, m₁) ∧ m₁.remaining = m.remaining := by
  refine ⟨_, Run.pushBack_eval t m', ?_⟩
  rw [Machine.remaining_push, (remaining_of_raw h).1]
  rfl

/-! ### Many tokens -/

/-- Tokens at the front of the remaining stream are supplied one after another. -/
theorem supplies_of_remaining {ts : List Token} {rest : List Item}
    (hm : m.cancellation.raised = false) (h : m.remaining = ts.map .ok ++ rest) :
    ∃ m', raw.Supplies ts m m' ∧ m'.remaining = rest ∧ m.SameButInput m' := by
  induction ts generalizing m with
  | nil => exact ⟨m, rfl, h, .refl m⟩
  | cons t ts ih =>
    obtain ⟨m₁, hraw, htail, hsame⟩ := raw_of_remaining hm
    rw [h] at hraw htail
    obtain ⟨m', hts, hrest, hsame'⟩ := ih (hsame.raised.trans hm) htail
    exact ⟨m', ⟨m₁, hraw, hts⟩, hrest, hsame.trans hsame'⟩

end Stream

/-! ### Reading on from a machine -/

/-- The second machine goes on with the given input, and differs from the first one in nothing but its
input and what has been given out. -/
structure Machine.Before (m₀ : Machine) (items : List Item) (m : Machine) : Prop where
  same : m₀.SameButInput m
  remaining : m.remaining = items
  accounted : Input.Accounted m.input.sources
  going : m₀.cancellation.raised = false

namespace Machine.Before

variable {m₀ m : Machine} {items rest : List Item} {ts : List Token} {t : Token}

theorem raised (h : m₀.Before items m) : m.cancellation.raised = false := h.same.raised.trans h.going

theorem steady (h : m₀.Before items m) : m.Steady m₀.scopes.bindings where
  bindings := by rw [h.same]
  accounted := h.accounted

/-- The tokens that come first can be read. -/
theorem supplies (h : m₀.Before (ts.map .ok ++ rest) m) :
    ∃ m', Stream.raw.Supplies ts m m' ∧ m₀.Before rest m' := by
  obtain ⟨m', hts, hrest, hsame⟩ := Stream.supplies_of_remaining h.raised h.remaining
  exact ⟨m', hts, h.same.trans hsame, hrest, (h.steady.supplies hts).accounted, h.going⟩

theorem raw (h : m₀.Before (.ok t :: rest) m) :
    ∃ m', Stream.raw m = (.ok (some t), m') ∧ m₀.Before rest m' := by
  have hfirst : m₀.Before ([t].map .ok ++ rest) m := h
  obtain ⟨m', ht, hrest⟩ := hfirst.supplies
  exact ⟨m', Stream.supplies_singleton.1 ht, hrest⟩

/-- At the end nothing is read. -/
theorem raw_end (h : m₀.Before [] m) : ∃ m', Stream.raw m = (.ok none, m') ∧ m₀.Before [] m' := by
  obtain ⟨m', hraw, hempty, hsame⟩ := Stream.raw_at_end h.raised h.remaining
  exact ⟨m', hraw, h.same.trans hsame, hempty, Run.accounted_of_raw hraw h.accounted, h.going⟩

/-- Tokens that are put in front of the input come first. -/
theorem push (h : m₀.Before items m) (ts : List Token) : m₀.Before (ts.map .ok ++ items) (m.push ts) where
  same := h.same.trans (.push m ts)
  remaining := by rw [Machine.remaining_push, h.remaining]
  accounted := Input.accounted_pushAll h.accounted ts
  going := h.going

end Machine.Before

theorem Machine.before_ready : ready.Before [] ready := ⟨rfl, rfl, accounted_ready [], rfl⟩

namespace Stream

variable {m m' : Machine}

/-! ### Sequences of operations -/

/-- An operation on the unexpanded stream. -/
inductive Access where
  /-- Read a token. -/
  | next
  /-- Look at the next token. -/
  | peek
  /-- Put a token back. -/
  | back (t : Token)
  /-- Push the tokens of an expansion. -/
  | push (ts : List Token)

namespace Access

/-- The operation as an action. -/
def run : Access → Stream
  | .next => raw
  | .peek => raw.peek
  | .back t => do
    Run.pushBack t
    return none
  | .push ts => do
    Run.pushTokens ts
    return none

/-- The operation on a list: its answer, and the list that is left. A failure cannot be put back, so
looking at one takes it away. -/
def onList : Access → List Item → Except LexError (Option Token) × List Item
  | .next, items => (head items, items.tail)
  | .peek, .error e :: items => (.error e, items)
  | .peek, items => (head items, items)
  | .back t, items => (.ok none, .ok t :: items)
  | .push ts, items => (.ok none, ts.map .ok ++ items)

/-- The answers to operations one after another, and the list that is left. -/
def allOnList : List Access → List Item → List (Except LexError (Option Token)) × List Item
  | [], items => ([], items)
  | op :: ops, items =>
    let (answer, left) := op.onList items
    let (answers, left) := allOnList ops left
    (answer :: answers, left)

/-- The answers to operations one after another, whether one of them fails or not, and the machine that
they lead to. -/
def runAll : List Access → Machine → List (Except Halt (Option Token)) × Machine
  | [], m => ([], m)
  | op :: ops, m =>
    let (answer, m) := op.run m
    let (answers, m) := runAll ops m
    (answer :: answers, m)

/-- An operation does to the remaining stream what it does to a list. -/
theorem run_eq (op : Access) (hm : m.cancellation.raised = false) :
    ∃ m', op.run m = ((op.onList m.remaining).1.mapError m.halt, m') ∧
      m'.remaining = (op.onList m.remaining).2 ∧ m.SameButInput m' := by
  cases op with
  | next => exact raw_of_remaining hm
  | peek =>
    obtain ⟨m', hraw, htail, hsame⟩ := raw_of_remaining hm
    cases hitems : m.remaining with
    | nil =>
      rw [hitems] at hraw htail
      refine ⟨m', ?_, htail, hsame⟩
      exact Run.bind_of_ok hraw
    | cons item rest =>
      rw [hitems] at hraw htail
      cases item with
      | error e => exact ⟨m', Run.bind_of_error hraw, htail, hsame⟩
      | ok t =>
        refine ⟨m'.push [t], peek_of_raw hraw, ?_, hsame.trans (.push m' [t])⟩
        rw [Machine.remaining_push, htail]
        rfl
  | back t => exact ⟨m.push [t], Run.bind_of_ok (Run.pushBack_eval t m), m.remaining_push [t], .push m [t]⟩
  | push ts => exact ⟨m.push ts, rfl, m.remaining_push ts, .push m ts⟩

/-- Operations one after another do to the remaining stream what they do to a list. -/
theorem runAll_eq (ops : List Access) (hm : m.cancellation.raised = false) :
    ∃ m', runAll ops m = ((allOnList ops m.remaining).1.map (·.mapError m.halt), m') ∧
      m'.remaining = (allOnList ops m.remaining).2 ∧ m.SameButInput m' := by
  induction ops generalizing m with
  | nil => exact ⟨m, rfl, rfl, .refl m⟩
  | cons op ops ih =>
    obtain ⟨m₁, hop, hleft, hsame⟩ := op.run_eq hm
    obtain ⟨m', hops, hleft', hsame'⟩ := ih (m := m₁) (hsame.raised.trans hm)
    rw [hleft] at hops hleft'
    rw [hsame.halt] at hops
    refine ⟨m', ?_, hleft', hsame.trans hsame'⟩
    unfold runAll
    rw [hop]
    dsimp only
    rw [hops]
    rfl

end Access

/-- **The unexpanded stream is the remaining stream.**

To read a token gives the head and leaves the tail, wherever it stands; to put a token back, or to push
the tokens of an expansion, puts them in front; so to look at a token, or to put back the one that was
read, leaves the stream as it was. Whatever operations follow one another, their answers and the stream
that they leave are those of the same operations on the list. -/
theorem operations_on_remaining (m : Machine) (hm : m.cancellation.raised = false) :
    (∃ m', raw m = ((head m.remaining).mapError m.halt, m') ∧ m'.remaining = m.remaining.tail) ∧
    (∀ t, ∃ m', Run.pushBack t m = (.ok ⟨⟩, m') ∧ m'.remaining = .ok t :: m.remaining) ∧
    (∀ ts, ∃ m', Run.pushTokens ts m = (.ok ⟨⟩, m') ∧
      m'.remaining = ts.map .ok ++ m.remaining) ∧
    (∀ t? m', raw.peek m = (.ok t?, m') → head m.remaining = .ok t? ∧ m'.remaining = m.remaining) ∧
    (∀ t m', raw m = (.ok (some t), m') →
      ∃ m₁, Run.pushBack t m' = (.ok ⟨⟩, m₁) ∧ m₁.remaining = m.remaining) ∧
    ∀ ops, ∃ m',
      Access.runAll ops m =
        ((Access.allOnList ops m.remaining).1.map (·.mapError m.halt), m') ∧
      m'.remaining = (Access.allOnList ops m.remaining).2 ∧ m'.codeOf = m.codeOf := by
  refine ⟨?_, fun t => ⟨_, Run.pushBack_eval t m, m.remaining_push [t]⟩,
    fun ts => ⟨m.push ts, rfl, m.remaining_push ts⟩, fun _ _ => remaining_of_peek,
    fun _ _ => remaining_of_raw_of_pushBack, fun ops => ?_⟩
  · obtain ⟨m', hraw, htail, -⟩ := raw_of_remaining hm
    exact ⟨m', hraw, htail⟩
  · obtain ⟨m', hops, hleft, hsame⟩ := Access.runAll_eq ops hm
    exact ⟨m', hops, hleft, hsame.codeOf⟩

/-- A token that stands below an exhausted file and a capture is read, is put back on the next source that
is kept, and is read again. -/
theorem operations_below_exhausted :
    let x : Token := .char .letter 'x' none
    let exhausted : InputSource := { kind := .file (.start [] .empty false) }
    let m : Machine :=
      { input := ⟨[exhausted, { kind := .capture }, { pending := .ofList [x], kind := .bottom }]⟩ }
    m.cancellation.raised = false ∧ m.remaining = [.ok x] ∧
      ∃ m', Access.runAll [.next, .back x, .next] m =
          ([.ok (some x), .ok none, .ok (some x)], m') ∧ m'.remaining = [] := by
  intro x exhausted m
  have hend : (Lexer.start [] .empty false).items m.codeOf = [] :=
    Lexer.items_of_end (Lexer.next_of_end rfl)
  have hremaining : m.remaining = [.ok x] := by
    show [] ++ ((Lexer.start [] .empty false).items m.codeOf ++ [.ok x]) = [.ok x]
    rw [hend]
    rfl
  obtain ⟨-, -, -, -, -, hall⟩ := operations_on_remaining m rfl
  obtain ⟨m', hops, hleft, -⟩ := hall [.next, .back x, .next]
  rw [hremaining] at hops hleft
  exact ⟨rfl, hremaining, m', hops, hleft⟩

end Stream

end Gullet
