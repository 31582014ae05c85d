import Gullet.Expansion
import Gullet.Proofs.Run.Evaluation

/-!
# Relations that expansion respects

Expansion, and the readers that it uses, are made of fewer acts than execution: tokens are read and put
in front of the input, files are opened and left, branches of conditionals come and go, and the only
assignment is that `\csname` makes an undefined reference do nothing. Of the input these actions see no
more than the tokens that they read, whether expansion is possible, and how many files are open.

A relation between actions that all these acts respect, and the ways in which actions are put together,
is respected by every reader and by expansion as a whole. Stopping where a number is too large is an act
apart, since most readers never come to it. To relate an action to another one, and not
only to itself, is needed where an action calls itself: two runs of it make different calls. So it is for
readers, which may use different expanders.
-/

namespace Gullet

/-- The run stops in good order: with a failure, or since it has used up its steps. -/
@[grind] def Halt.IsOrderly : Halt → Prop
  | .failed _ | .outOfSteps => True
  | .overflow | .reversedSlice => False

/-- A relation between actions. -/
abbrev Run.Relation := ∀ ⦃α : Type⦄, Run α → Run α → Prop

namespace Machine

/-- The machine differs from another one in its input and in what has been given out. -/
def SameButInput (m m' : Machine) : Prop := m' = { m with input := m'.input, output := m'.output }

namespace SameButInput

variable {m m' m'' : Machine}

theorem refl (m : Machine) : m.SameButInput m := rfl

theorem trans (h : m.SameButInput m') (h' : m'.SameButInput m'') : m.SameButInput m'' := by
  unfold SameButInput at h h' ⊢
  rw [h] at h'
  exact h'

end SameButInput

/-- To an action that reads no token, leaves no branch of a conditional and expands nothing, one machine
looks like another one: they differ only in what has been given out, in their sources, in the branches that
are open, and in what limits to expansion refer to. -/
structure LooksLike (m n : Machine) : Prop where
  others : n = { m with
    input := n.input
    output := n.output
    branches := n.branches
    expansions := n.expansions
    expansionDepth := n.expansionDepth }
  expansionEnabled : n.input.expansionEnabled = m.input.expansionEnabled
  fileCount : n.input.fileCount = m.input.fileCount

namespace LooksLike

variable {m n : Machine}

theorem refl (m : Machine) : m.LooksLike m := ⟨rfl, rfl, rfl⟩

theorem atlas (h : m.LooksLike n) : n.atlas = m.atlas := by rw [h.others]

theorem scopes (h : m.LooksLike n) : n.scopes = m.scopes := by rw [h.others]

theorem config (h : m.LooksLike n) : n.config = m.config := by rw [h.others]

theorem policy (h : m.LooksLike n) : n.policy = m.policy := by rw [h.others]

theorem builtIns (h : m.LooksLike n) : n.builtIns = m.builtIns := by rw [h.others]

theorem files (h : m.LooksLike n) : n.files = m.files := by rw [h.others]

theorem workingDirectory (h : m.LooksLike n) : n.workingDirectory = m.workingDirectory := by
  rw [h.others]

theorem lookup (h : m.LooksLike n) : n.lookup = m.lookup := by
  unfold Machine.lookup
  rw [h.scopes]

theorem expands (h : m.LooksLike n) : Stream.expands n = Stream.expands m := by
  have hfull : n.fullExpansions = m.fullExpansions := by rw [h.others]
  unfold Stream.expands
  rw [hfull]

end LooksLike

end Machine

namespace Conditional

/-- Whether a divider ends a branch of the kind. -/
def ends : Divider → BranchKind → Bool
  | .nextCase, kind => kind = .case
  | .elseBranch, kind => kind ≠ .otherwise
  | .endIf, _ => true

/-- Closes the innermost branch and goes on, if the divider ends it. -/
def leave (t : Token) (d : Divider) (after : Branch → Run Unit) : Run Unit := do
  match (← get).branches with
  | b :: _ =>
    if ends d b.kind then
      closeBranch
      after b
    else Run.fail (.unexpectedDivider t d)
  | [] => Run.fail (.unexpectedDivider t d)

/-- Passes over what is left of the conditional of a branch. -/
def passOver (part : SkippedPart) (b : Branch) : Run Unit := do
  _ ← skip b.token false false part

/-! The dividers close the innermost branch in the same way. -/

theorem endCase_eq_leave (t : Token) :
    endCase t = leave t .nextCase (passOver .remainingCases) := by
  funext m
  unfold endCase leave
  rw [Run.get_bind_eval, Run.get_bind_eval]
  rcases m.branches with _ | ⟨⟨opener, kind⟩, outer⟩
  · rfl
  · cases kind <;> rfl

theorem endHolding_eq_leave (t : Token) :
    endHolding t = leave t .elseBranch (passOver .falseBranch) := by
  funext m
  unfold endHolding leave
  rw [Run.get_bind_eval, Run.get_bind_eval]
  rcases m.branches with _ | ⟨⟨opener, kind⟩, outer⟩
  · rfl
  · cases kind <;> rfl

theorem endConditional_eq_leave (t : Token) :
    endConditional t = leave t .endIf fun _ => return () := by
  funext m
  unfold endConditional leave
  rw [Run.get_bind_eval, Run.get_bind_eval]
  rcases m.branches with _ | ⟨b, outer⟩
  · rfl
  · rfl

end Conditional

namespace Run

/-- A relation that is respected by the acts of expansion, as long as no number is too large, and by the
ways to put actions together. -/
class Compositional (P : Relation) : Prop where
  pure {α : Type} (x : α) : P (Pure.pure x) (Pure.pure x)
  throw {α : Type} {h : Halt} (hh : h.IsOrderly) :
    P (MonadExcept.throw h : Run α) (MonadExcept.throw h)
  /-- What follows need only be related after a result that can be given. -/
  bind {α β : Type} {a a' : Run α} {f f' : α → Run β} (ha : P a a')
    (hf : ∀ x, a.MayGive x → P (f x) (f' x)) : P (a >>= f) (a' >>= f')
  /-- What an action sees of the machine. -/
  get {α : Type} {f f' : Machine → Run α} (h : ∀ m n, m.LooksLike n → P (f m) (f' n)) :
    P (MonadState.get >>= f) (MonadState.get >>= f')
  during {α : Type} {a a' : Run α} (operation : Operation) (t : Token) (ha : P a a') :
    P (Run.during operation t a) (Run.during operation t a')
  loop {α β : Type} {step step' : β → Run (β ⊕ α)} (h : ∀ b, P (step b) (step' b)) (b : β) :
    P (Run.loop step b) (Run.loop step' b)
  fix {α : Type} {body body' : Run α → Run α}
    (h : ∀ again again' : Run α, P again again' → P (body again) (body' again')) :
    P (Run.fix body) (Run.fix body')
  raw : P Stream.raw Stream.raw
  pushTokens (ts : List Token) : P (Run.pushTokens ts) (Run.pushTokens ts)
  /-- Telling that a file is read. -/
  announce (path : Path) : P (Run.emit (.input path)) (Run.emit (.input path))
  writeLog (s : String) : P (Run.writeLog s) (Run.writeLog s)
  writeTerminal (s : String) : P (Run.writeTerminal s) (Run.writeTerminal s)
  /-- Making a reference do nothing, if it is undefined. -/
  name {α : Type} {a a' : Run α} (ref : CommandRef) (ha : P a a') :
    P (do
        let command ← Run.lookup ref
        if command.isDefined = true then a
        else
          Run.bindRef .inner ref (.execution .relax)
          a)
      (do
        let command ← Run.lookup ref
        if command.isDefined = true then a'
        else
          Run.bindRef .inner ref (.execution .relax)
          a')
  openBranch (b : Branch) : P (Conditional.openBranch b) (Conditional.openBranch b)
  /-- Closing the innermost branch of a conditional. -/
  leave {a a' : Branch → Run Unit} (t : Token) (d : Divider) (h : ∀ b, P (a b) (a' b)) :
    P (Conditional.leave t d a) (Conditional.leave t d a')
  /-- Counting an expansion. -/
  count (t : Token) : P (Expansion.count t) (Expansion.count t)
  openSource (origin : Origin) (content : String) :
    P (Run.openSource origin content) (Run.openSource origin content)
  endInput : P Inclusion.endInput Inclusion.endInput
  region {α : Type} {a a' : Run α} (l : TokenList) (ha : P a a') :
    P (Run.region l a) (Run.region l a')
  deeper {α : Type} {a a' : Run α} (t : Token) (ha : P a a') :
    P (Expansion.deeper t a) (Expansion.deeper t a')
  shielding {α : Type} {a a' : Run α} (ha : P a a') : P (Run.shielding a) (Run.shielding a')

/-- A relation that is also respected by stopping where a number is too large. -/
class Overflowing (P : Relation) : Prop extends Compositional P where
  overflow {α : Type} :
    P (MonadExcept.throw Halt.overflow : Run α) (MonadExcept.throw Halt.overflow)

/-- The relation holds between the actions. -/
def Relates {α : Type} (a : Run α) (P : Relation) (a' : Run α) : Prop := P a a'

/-- The action respects the relation: it is related to itself. -/
abbrev Respects (P : Relation) {α : Type} (a : Run α) : Prop := a.Relates P a

variable {P : Relation} [Compositional P] {α β : Type}

@[grind .] theorem respects_pure (x : α) : (pure x : Run α).Respects P :=
  Compositional.pure x

@[grind .] theorem respects_throw {h : Halt} (hh : h.IsOrderly) : (throw h : Run α).Respects P :=
  Compositional.throw hh

namespace Relates

variable {a a' : Run α} {f f' : α → Run β}

theorem bind_of_mayGive (ha : a.Relates P a') (hf : ∀ x, a.MayGive x → (f x).Relates P (f' x)) :
    (a >>= f).Relates P (a' >>= f') := Compositional.bind ha hf

@[grind .] theorem bind (ha : a.Relates P a') (hf : ∀ x, (f x).Relates P (f' x)) :
    (a >>= f).Relates P (a' >>= f') := ha.bind_of_mayGive fun x _ => hf x

/-- Actions that depend only on what they see of the machine. -/
theorem get {f f' : Machine → Run α} (hf : ∀ m n, m.LooksLike n → f' n = f' m)
    (h : ∀ m, (f m).Relates P (f' m)) :
    (MonadState.get >>= f).Relates P (MonadState.get >>= f') := by
  refine Compositional.get fun m n hlooks => ?_
  rw [hf m n hlooks]
  exact h m

@[grind .] theorem map (f : α → β) (ha : a.Relates P a') : (f <$> a).Relates P (f <$> a') := by
  rw [map_eq_pure_bind, map_eq_pure_bind]
  exact ha.bind fun x => respects_pure (f x)

@[grind .] theorem during (operation : Operation) (t : Token) (ha : a.Relates P a') :
    (Run.during operation t a).Relates P (Run.during operation t a') :=
  Compositional.during operation t ha

@[grind .] theorem loop {step step' : β → Run (β ⊕ α)} (h : ∀ b, (step b).Relates P (step' b)) (b : β) :
    (Run.loop step b).Relates P (Run.loop step' b) := Compositional.loop h b

/-- Actions that call themselves are related, if related calls make them related. -/
theorem fix {body body' : Run α → Run α}
    (h : ∀ again again' : Run α, again.Relates P again' → (body again).Relates P (body' again')) :
    (Run.fix body).Relates P (Run.fix body') := Compositional.fix h

@[grind .] theorem forM {xs : List α} {f f' : α → Run PUnit} (hf : ∀ x, (f x).Relates P (f' x)) :
    (xs.forM f).Relates P (xs.forM f') := by
  induction xs with
  | nil => exact respects_pure _
  | cons x rest ih => exact (hf x).bind fun _ => ih

@[grind .] theorem option_forM {x : Option α} {f f' : α → Run PUnit}
    (hf : ∀ x, (f x).Relates P (f' x)) : (x.forM f).Relates P (x.forM f') := by
  cases x with
  | none => exact respects_pure _
  | some x => exact hf x

@[grind .] theorem region (l : TokenList) (ha : a.Relates P a') :
    (Run.region l a).Relates P (Run.region l a') := Compositional.region l ha

@[grind .] theorem deeper (t : Token) (ha : a.Relates P a') :
    (Expansion.deeper t a).Relates P (Expansion.deeper t a') := Compositional.deeper t ha

@[grind .] theorem shielding (ha : a.Relates P a') :
    (Run.shielding a).Relates P (Run.shielding a') := Compositional.shielding ha

end Relates

/-! ### Acts -/

@[grind .] theorem respects_fail (f : Fault) : (fail f : Run α).Respects P :=
  Relates.get (fun m n h => by rw [h.atlas]) fun _ => respects_throw trivial

@[grind .] theorem respects_raw : Stream.raw.Respects P := Compositional.raw

@[grind .] theorem respects_pushTokens (ts : List Token) : (pushTokens ts).Respects P :=
  Compositional.pushTokens ts

@[grind .] theorem respects_pushBack (t : Token) : (pushBack t).Respects P := by
  have hpush : pushBack t = pushTokens [t] := by
    unfold pushBack pushTokens
    simp only [Input.push_eq_pushAll]
  rw [hpush]
  exact respects_pushTokens [t]

@[grind .] theorem respects_announce (path : Path) : (emit (.input path)).Respects P :=
  Compositional.announce path

@[grind .] theorem respects_writeLog (s : String) : (writeLog s).Respects P :=
  Compositional.writeLog s

@[grind .] theorem respects_writeTerminal (s : String) : (writeTerminal s).Respects P :=
  Compositional.writeTerminal s

@[grind .] theorem respects_openSource (origin : Origin) (content : String) :
    (openSource origin content).Respects P := Compositional.openSource origin content

@[grind .] theorem respects_lookup (ref : CommandRef) : (lookup ref).Respects P :=
  Relates.get (fun m n h => by rw [h.lookup]) fun _ => respects_pure _

end Run

end Gullet
