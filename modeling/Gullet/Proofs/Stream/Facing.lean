import Gullet.Proofs.Stream.Expanding
import Gullet.Proofs.Stream.Remaining

/-!
# Going on with known input

Where the input that is left is known, an action can be followed step by step: each one reads some of it,
or puts tokens in front of it, and changes nothing else but what is given out. An expansion is followed in
the same way, and is counted.
-/

namespace Gullet

open Lexer (Item)

/-- The second machine goes on with the given input, where commands are expanded, and differs from the
first one in nothing but its input and what has been given out. -/
structure Machine.Facing (m₀ : Machine) (items : List Item) (m : Machine) : Prop where
  same : m₀.SameButInput m
  remaining : m.remaining = items
  accounted : Input.Accounted m.input.sources
  expanding : m.Expanding
  going : m₀.cancellation.raised = false

namespace Run

variable {ts : List Token} {m m' : Machine}

theorem expanding_of_supplies (h : Stream.raw.Supplies ts m m') (hm : m.Expanding) : m'.Expanding := by
  induction ts generalizing m with
  | nil =>
    obtain rfl : m = m' := h
    exact hm
  | cons t ts ih =>
    obtain ⟨m₁, ht, hts⟩ := h
    exact ih hts (expanding_of_raw ht hm)

end Run

/-- Expanding a macro counts an expansion and calls it. -/
theorem Run.expand_custom {t : Token} {ref : CommandRef} {mac : Macro} {m m' : Machine}
    (hv : t.value = .command ref) (hlookup : m.lookup ref = .custom mac)
    (hroom : m.expansions < m.config.maxExpansions) (h : mac.call t (m.counting 1) = (.ok ⟨⟩, m')) :
    expand t m = (.ok none, m') := by
  show Expansion.expandWithin (m.config.maxExpansionDepth + 1) t m = _
  unfold Expansion.expandWithin
  rw [hv]
  dsimp only
  have hlookup : (m.counting 1).lookup ref = .custom mac := hlookup
  rw [bind_of_ok (count_eval t hroom), bind_of_ok (lookup_eval ref (m.counting 1)), hlookup]
  dsimp only
  rw [bind_of_ok (during_of_ok _ t h)]
  rfl

theorem Machine.Expanding.push {m : Machine} (hm : m.Expanding) (ts : List Token) :
    (m.push ts).Expanding := by
  intro mode hmode
  have hframe : Input.frame (m.push ts).input.sources = Input.frame m.input.sources :=
    Input.frame_mapTop m.input fun _ => rfl
  exact hm mode (hframe ▸ hmode)

namespace Machine.Facing

variable {m₀ m m' : Machine} {items rest : List Item} {ts spaces : List Token} {t : Token}

/-- Whether commands are expanded matters only to those. -/
theorem before (h : m₀.Facing items m) : m₀.Before items m :=
  ⟨h.same, h.remaining, h.accounted, h.going⟩

theorem of_before (h : m₀.Before items m) (hm : m.Expanding) : m₀.Facing items m :=
  ⟨h.same, h.remaining, h.accounted, hm, h.going⟩

theorem raised (h : m₀.Facing items m) : m.cancellation.raised = false := h.before.raised

theorem steady (h : m₀.Facing items m) : m.Steady m₀.scopes.bindings := h.before.steady

theorem lookup (h : m₀.Facing items m) (ref : CommandRef) : m.lookup ref = m₀.lookup ref :=
  congrArg (Bindings.lookup · ref) h.steady.bindings

/-- What is said of the input does not depend on the machine that is compared. -/
theorem self (h : m₀.Facing items m) : m.Facing items m :=
  ⟨rfl, h.remaining, h.accounted, h.expanding, h.raised⟩

/-- What has been given out does not matter. -/
theorem withOutput (h : m₀.Facing items m) (output : Output) : m₀.Facing items { m with output } where
  same := by
    show ({ m with output } : Machine) = { m₀ with input := m.input, output }
    exact congrArg (fun m : Machine => ({ m with output } : Machine)) h.same
  remaining := h.remaining
  accounted := h.accounted
  expanding := h.expanding
  going := h.going

/-- The tokens that come first can be read. -/
theorem supplies (h : m₀.Facing (ts.map .ok ++ rest) m) :
    ∃ m', Stream.raw.Supplies ts m m' ∧ m₀.Facing rest m' := by
  obtain ⟨m', hts, hrest⟩ := h.before.supplies
  exact ⟨m', hts, .of_before hrest (Run.expanding_of_supplies hts h.expanding)⟩

theorem raw (h : m₀.Facing (.ok t :: rest) m) :
    ∃ m', Stream.raw m = (.ok (some t), m') ∧ m₀.Facing rest m' := by
  obtain ⟨m', ht, hrest⟩ := h.before.raw
  exact ⟨m', ht, .of_before hrest (Run.expanding_of_raw ht h.expanding)⟩

/-- At the end nothing is read. -/
theorem raw_end (h : m₀.Facing [] m) : ∃ m', Stream.raw m = (.ok none, m') ∧ m₀.Facing [] m' := by
  obtain ⟨m', hraw, hend⟩ := h.before.raw_end
  exact ⟨m', hraw, .of_before hend (Run.expanding_of_raw hraw h.expanding)⟩

/-- Tokens that are put in front of the input come first. -/
theorem push (h : m₀.Facing items m) (ts : List Token) : m₀.Facing (ts.map .ok ++ items) (m.push ts) :=
  .of_before (h.before.push ts) (h.expanding.push ts)

/-- A token that is looked at stays where it is. -/
theorem peek (h : m₀.Facing (.ok t :: rest) m) :
    ∃ m', Stream.raw.peek m = (.ok (some t), m') ∧ m₀.Facing (.ok t :: rest) m' := by
  obtain ⟨m₁, ht, h₁⟩ := h.raw
  exact ⟨_, Stream.peek_of_raw ht, h₁.push [t]⟩

theorem peek_end (h : m₀.Facing [] m) :
    ∃ m', Stream.raw.peek m = (.ok none, m') ∧ m₀.Facing [] m' := by
  obtain ⟨m₁, hend, h₁⟩ := h.raw_end
  exact ⟨m₁, Run.bind_of_ok hend, h₁⟩

/-- A name that is bound changes nothing in the input. -/
theorem change_bound (h : m₀.Facing items m) (scope : Scope) (ref : CommandRef) (command : Command) :
    (m₀.change (.bound scope ref command)).Facing items (m.change (.bound scope ref command)) where
  same := by
    show m.change (.bound scope ref command) =
      { m₀.change (.bound scope ref command) with input := m.input, output := m.output }
    exact congrArg (·.change (.bound scope ref command)) h.same
  remaining := h.remaining
  accounted := h.accounted
  expanding := h.expanding
  going := h.going

/-! ### Expansions -/

theorem counting (h : m₀.Facing items m) (n : Nat) : (m₀.counting n).Facing items (m.counting n) where
  same := by
    show m.counting n = { m₀.counting n with input := m.input, output := m.output }
    exact congrArg (·.counting n) h.same
  remaining := h.remaining
  accounted := h.accounted
  expanding := h.expanding
  going := h.going

theorem deepened (h : m₀.Facing items m) : m₀.deepened.Facing items m.deepened where
  same := by
    show m.deepened = { m₀.deepened with input := m.input, output := m.output }
    exact congrArg Machine.deepened h.same
  remaining := h.remaining
  accounted := h.accounted
  expanding := h.expanding
  going := h.going

/-- What is one level deeper is so from some machine. -/
theorem exists_deepened (h : m₀.deepened.Facing items m) : ∃ m', m = m'.deepened ∧ m₀.Facing items m' := by
  refine ⟨{ m₀ with input := m.input, output := m.output }, h.same, ?_⟩
  have hremaining :
      m.remaining = ({ m₀.deepened with input := m.input, output := m.output } : Machine).remaining :=
    congrArg Machine.remaining h.same
  exact ⟨rfl, hremaining.symm.trans h.remaining, h.accounted, h.expanding, h.going⟩

variable {items' : List Item} {ref : CommandRef}

/-- Where a command comes next, the main stream goes on after its expansion. -/
theorem main_step (h : m₀.Facing (.ok t :: items) m) (hv : t.value = .command ref)
    (hexpands : Stream.expands m₀ (m₀.lookup ref) = true)
    (hroom : m₀.expansions < m₀.config.maxExpansions)
    (hx : ∀ m₁, m₀.Facing items m₁ → ∃ m₂, expand t m₁ = (.ok none, m₂) ∧ (m₀.counting 1).Facing items' m₂) :
    ∃ m', Stream.main m = Stream.main m' ∧ (m₀.counting 1).Facing items' m' := by
  obtain ⟨m₁, ht, h₁⟩ := h.raw
  obtain ⟨m₂, hexpand, h₂⟩ := hx m₁ h₁
  have hexpands₁ : Stream.expands m₁ (m₁.lookup ref) = true := by
    rw [h₁.lookup, h₁.same]
    exact hexpands
  have hleft : m₂.expansionsLeft < m.expansionsLeft := by
    rw [h₂.same, h.same]
    show m₀.config.maxExpansions + 1 - (m₀.expansions + 1) < m₀.config.maxExpansions + 1 - m₀.expansions
    omega
  exact ⟨m₂, Run.expanded_of_expand ht hv h.expanding hexpands₁ hexpand hleft, h₂⟩

/-- A macro that comes next is called. -/
theorem main_custom {mac : Macro} (h : m₀.Facing (.ok t :: items) m) (hv : t.value = .command ref)
    (hlookup : m₀.lookup ref = .custom mac) (hshielded : mac.shielded = false)
    (hroom : m₀.expansions < m₀.config.maxExpansions)
    (hcall : ∀ m₁, (m₀.counting 1).Facing items m₁ →
      ∃ m₂, mac.call t m₁ = (.ok ⟨⟩, m₂) ∧ (m₀.counting 1).Facing items' m₂) :
    ∃ m', Stream.main m = Stream.main m' ∧ (m₀.counting 1).Facing items' m' := by
  have hexpands : Stream.expands m₀ (m₀.lookup ref) = true := by
    rw [hlookup]
    simp [Stream.expands, hshielded]
  refine h.main_step hv hexpands hroom fun m₁ h₁ => ?_
  obtain ⟨m₂, hm₂, h₂⟩ := hcall _ (h₁.counting 1)
  have hroom₁ : m₁.expansions < m₁.config.maxExpansions := by
    rw [h₁.same]
    exact hroom
  exact ⟨m₂, Run.expand_custom hv ((h₁.lookup ref).trans hlookup) hroom₁ hm₂, h₂⟩

/-- A primitive that comes next, and gives no token itself, is carried out one level deeper. -/
theorem main_primitive {p : ExpansionPrimitive} (h : m₀.Facing (.ok t :: items) m)
    (hv : t.value = .command ref) (hlookup : m₀.lookup ref = .expansion p)
    (hroom : m₀.expansions < m₀.config.maxExpansions)
    (hdepth : m₀.expansionDepth < m₀.config.maxExpansionDepth)
    (hprimitive : ∀ (x : Expander) m₁, (m₀.counting 1).deepened.Facing items m₁ →
      ∃ m₂, Expansion.primitive x t p m₁ = (.ok none, m₂) ∧ (m₀.counting 1).deepened.Facing items' m₂) :
    ∃ m', Stream.main m = Stream.main m' ∧ (m₀.counting 1).Facing items' m' := by
  have hexpands : Stream.expands m₀ (m₀.lookup ref) = true := by
    rw [hlookup]
    rfl
  refine h.main_step hv hexpands hroom fun m₁ h₁ => ?_
  obtain ⟨m₂, hm₂, h₂⟩ := hprimitive (Expansion.expandWithin m₁.config.maxExpansionDepth) _
    (h₁.counting 1).deepened
  obtain ⟨m₃, rfl, h₃⟩ := h₂.exists_deepened
  have hroom₁ : m₁.expansions < m₁.config.maxExpansions := by
    rw [h₁.same]
    exact hroom
  have hdepth₁ : m₁.expansionDepth < m₁.config.maxExpansionDepth := by
    rw [h₁.same]
    exact hdepth
  exact ⟨m₃, Run.expand_primitive hv ((h₁.lookup ref).trans hlookup) hroom₁ hdepth₁ hm₂, h₃⟩

end Machine.Facing

end Gullet
