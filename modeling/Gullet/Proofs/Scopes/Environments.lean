import Mathlib.Logic.Function.Basic
import Gullet.Proofs.Run.Evaluation
import Gullet.Proofs.Scope.Layers
import Gullet.Proofs.Scopes.Balance

/-!
# Grouping as a stack of complete environments

An environment gives every command and every variable a value. The plain way to have groups is a stack
of them: to open a group is to duplicate the current environment, and to close it is to drop that one.
Here it is shown that what is subject to grouping, with its logs of what to undo, does the same.

The environments of the stack are those that closing one group after the other leads to. Each law of
scoped maps about what is left of a write gives one about these environments, and so every change acts
on the stack as the plain operation does.
-/

namespace Gullet

/-- The values of all commands and variables. -/
structure Environment where
  command : CommandRef → Command
  int : IntVariable → Int
  dimen : Nat → Dimen
  tokenList : Nat → List Token
  catCode : Nat → CatCode

namespace Environment

/-- Binds a reference to a command. -/
def bind (e : Environment) (ref : CommandRef) (command : Command) : Environment :=
  { e with command := Function.update e.command ref command }

/-- Writes a variable. -/
def write (e : Environment) : Store.Write → Environment
  | .int v n => { e with int := Function.update e.int v n }
  | .dimen index d => { e with dimen := Function.update e.dimen index d }
  | .tokenList index ts => { e with tokenList := Function.update e.tokenList index ts }
  | .catCode c code => { e with catCode := Function.update e.catCode c code }

/-- Makes an assignment. Other changes leave the values alone. -/
def apply (e : Environment) : Scopes.Change → Environment
  | .bound _ ref command => e.bind ref command
  | .written _ w => e.write w
  | _ => e

end Environment

/-- How long an assignment lasts; `none` for other changes. -/
def Scopes.Change.scope? : Scopes.Change → Option Scope
  | .bound scope _ _ => some scope
  | .written scope _ => some scope
  | _ => none

/-- The values that can be seen. -/
def Scopes.environment (s : Scopes) : Environment where
  command := s.bindings.lookup
  int := s.store.int
  dimen := s.store.dimen
  tokenList := s.store.tokenList
  catCode := s.store.catCode

/-- Changes the current value, or every value. -/
def Layers.assign {α : Type u} (l : Layers α) (scope : Scope) (f : α → α) : Layers α :=
  match scope with
  | .inner => l.mapCurrent f
  | .everywhere => l.mapAll f

/-! ### Writes that can be seen -/

section

variable {K : Type u} {V W : Type v} [Ord K] [Std.TransOrd K] [Std.LawfulEqOrd K] [DecidableEq K]

/-- Reading a map after a write, with a default for the keys that are absent. -/
theorem ScopedMap.read_insert (m : ScopedMap K V) (scope : Scope) (k : K) (v : V)
    (read : K → Option V → W) :
    (fun a => read a ((m.insert scope k v).get? a)) =
      Function.update (fun a => read a (m.get? a)) k (read k (some v)) := by
  funext a
  rw [get?_insert]
  by_cases h : a = k
  · subst h
    rw [Function.update_self, if_pos Std.ReflOrd.compare_self]
  · rw [Function.update_of_ne h, if_neg]
    exact fun heq => h (Std.LawfulEqOrd.eq_of_compare heq).symm

end

namespace Scopes

variable {s t : Scopes}

theorem environment_bind (s : Scopes) (scope : Scope) (ref : CommandRef) (command : Command) :
    (s.apply (.bound scope ref command)).environment = s.environment.bind ref command := by
  have h := s.bindings.read_insert scope ref command fun _ c => c.getD .undefined
  simp only [Option.getD_some] at h
  simp only [environment, apply, Environment.bind]
  congr 1

theorem environment_write (s : Scopes) (scope : Scope) (w : Store.Write) :
    (s.apply (.written scope w)).environment = s.environment.write w := by
  cases w with
  | int v n =>
    have h := s.store.ints.read_insert scope v n fun _ n => n.getD 0
    simp only [Option.getD_some] at h
    simp only [environment, apply, Store.write, Environment.write]
    congr 1
  | dimen index d =>
    have h := s.store.dimens.read_insert scope index d fun _ d => d.getD .zero
    simp only [Option.getD_some] at h
    simp only [environment, apply, Store.write, Environment.write]
    congr 1
  | tokenList index ts =>
    have h := s.store.tokenLists.read_insert scope index ts fun _ ts => ts.getD []
    simp only [Option.getD_some] at h
    simp only [environment, apply, Store.write, Environment.write]
    congr 1
  | catCode c code =>
    have h := s.store.catCodes.read_insert scope c code fun c code => code.getD (CatCode.defaultFor c)
    simp only [Option.getD_some] at h
    simp only [environment, apply, Store.write, Environment.write]
    congr 1

end Scopes

/-! ### What closing a group leaves of a change -/

/-- Two stores whose maps cannot be told apart. -/
structure Store.Alike (s t : Store) : Prop where
  ints : s.ints.Alike t.ints
  dimens : s.dimens.Alike t.dimens
  tokenLists : s.tokenLists.Alike t.tokenLists
  catCodes : s.catCodes.Alike t.catCodes

namespace Store

theorem Alike.refl (s : Store) : s.Alike s := ⟨.refl _, .refl _, .refl _, .refl _⟩

theorem Alike.endGroup {s t : Store} (h : s.Alike t) : s.endGroup.Alike t.endGroup :=
  ⟨h.ints.endGroup, h.dimens.endGroup, h.tokenLists.endGroup, h.catCodes.endGroup⟩

theorem endGroup_beginGroup (s : Store) : s.beginGroup.endGroup.Alike s where
  ints := s.ints.endGroup_beginGroup
  dimens := s.dimens.endGroup_beginGroup
  tokenLists := s.tokenLists.endGroup_beginGroup
  catCodes := s.catCodes.endGroup_beginGroup

variable {s : Store} {n : Nat}

/-- Of a local write nothing is left. -/
theorem endGroup_write_inner (h : s.HasDepth (n + 1)) (w : Write) :
    (s.write .inner w).endGroup.Alike s.endGroup := by
  have hrefl := Alike.refl s.endGroup
  cases w with
  | int v k => exact { hrefl with ints := ScopedMap.endGroup_insertLocal (by simp [h.ints]) v k }
  | dimen index d =>
    exact { hrefl with dimens := ScopedMap.endGroup_insertLocal (by simp [h.dimens]) index d }
  | tokenList index ts =>
    exact { hrefl with tokenLists := ScopedMap.endGroup_insertLocal (by simp [h.tokenLists]) index ts }
  | catCode c code =>
    exact { hrefl with catCodes := ScopedMap.endGroup_insertLocal (by simp [h.catCodes]) c code }

/-- Of a global write everything is left. -/
theorem endGroup_write_everywhere (h : s.HasDepth (n + 1)) (w : Write) :
    (s.write .everywhere w).endGroup.Alike (s.endGroup.write .everywhere w) := by
  have hrefl := Alike.refl s.endGroup
  cases w with
  | int v k => exact { hrefl with ints := ScopedMap.endGroup_insertGlobal (by simp [h.ints]) v k }
  | dimen index d =>
    exact { hrefl with dimens := ScopedMap.endGroup_insertGlobal (by simp [h.dimens]) index d }
  | tokenList index ts =>
    exact { hrefl with
      tokenLists := ScopedMap.endGroup_insertGlobal (by simp [h.tokenLists]) index ts }
  | catCode c code =>
    exact { hrefl with catCodes := ScopedMap.endGroup_insertGlobal (by simp [h.catCodes]) c code }

end Store

namespace Scopes

/-- Scopes whose bindings and variables cannot be told apart. -/
structure Alike (s t : Scopes) : Prop where
  bindings : s.bindings.Alike t.bindings
  store : s.store.Alike t.store

variable {s t : Scopes}

theorem Alike.closeGroup (h : s.Alike t) : s.closeGroup.Alike t.closeGroup :=
  ⟨h.bindings.endGroup, h.store.endGroup⟩

theorem Alike.environment (h : s.Alike t) : s.environment = t.environment := by
  obtain ⟨hb, hi, hd, ht, hc⟩ := h
  have hcodes (c : Nat) : s.store.catCode c = t.store.catCode c :=
    congrArg (Option.getD · _) (hc.get? c)
  simp only [Scopes.environment, Environment.mk.injEq]
  refine ⟨?_, ?_, ?_, ?_, funext hcodes⟩
  · funext ref
    rw [Bindings.lookup, Bindings.lookup, hb.get?]
  · funext v
    rw [Store.int, Store.int, hi.get?]
  · funext index
    rw [Store.dimen, Store.dimen, hd.get?]
  · funext index
    rw [Store.tokenList, Store.tokenList, ht.get?]

/-! ### The environments of the open groups -/

/-- The environments that closing `n` groups leads to, one after the other. -/
def environmentsBelow : (n : Nat) → Scopes → List Environment
  | 0, _ => []
  | n + 1, s => s.closeGroup.environment :: environmentsBelow n s.closeGroup

/-- The current environment, and those that closing the open groups leads to. -/
def layers (s : Scopes) : Layers Environment where
  current := s.environment
  outer := environmentsBelow s.groups.length s

theorem Alike.environmentsBelow (h : s.Alike t) (n : Nat) :
    s.environmentsBelow n = t.environmentsBelow n := by
  induction n generalizing s t with
  | zero => rfl
  | succ n ih => rw [Scopes.environmentsBelow, Scopes.environmentsBelow, h.closeGroup.environment,
      ih h.closeGroup]

/-! ### How changes act on the environments -/

/-- An assignment, whatever its scope, gives the current environment the new value. -/
theorem environment_assign (s : Scopes) {c : Change} {scope : Scope} (hc : c.scope? = some scope) :
    (s.apply c).environment = s.environment.apply c := by
  cases c with
  | bound scope ref command => exact s.environment_bind scope ref command
  | written scope w => exact s.environment_write scope w
  | _ => cases hc

theorem groups_assign (s : Scopes) {c : Change} {scope : Scope} (hc : c.scope? = some scope) :
    (s.apply c).groups = s.groups := by
  cases c with
  | bound => rfl
  | written => rfl
  | _ => cases hc

/-- Of a local assignment nothing is left. -/
theorem closeGroup_assign_inner {g : Group} {outer : List Group} (he : s.Even)
    (hg : s.groups = g :: outer) {c : Change} (hc : c.scope? = some .inner) :
    (s.apply c).closeGroup.Alike s.closeGroup := by
  have hb := he.bindings
  have hs := he.store
  rw [hg, List.length_cons] at hb hs
  cases c with
  | bound scope ref command =>
    obtain rfl : scope = .inner := by simpa [Change.scope?] using hc
    exact ⟨ScopedMap.endGroup_insertLocal (by omega) ref command, .refl _⟩
  | written scope w =>
    obtain rfl : scope = .inner := by simpa [Change.scope?] using hc
    exact ⟨.refl _, Store.endGroup_write_inner hs w⟩
  | _ => cases hc

/-- Of a global assignment everything is left. -/
theorem closeGroup_assign_everywhere {g : Group} {outer : List Group} (he : s.Even)
    (hg : s.groups = g :: outer) {c : Change} (hc : c.scope? = some .everywhere) :
    (s.apply c).closeGroup.Alike (s.closeGroup.apply c) := by
  have hb := he.bindings
  have hs := he.store
  rw [hg, List.length_cons] at hb hs
  cases c with
  | bound scope ref command =>
    obtain rfl : scope = .everywhere := by simpa [Change.scope?] using hc
    exact ⟨ScopedMap.endGroup_insertGlobal (by omega) ref command, .refl _⟩
  | written scope w =>
    obtain rfl : scope = .everywhere := by simpa [Change.scope?] using hc
    exact ⟨.refl _, Store.endGroup_write_everywhere hs w⟩
  | _ => cases hc

/-- A global assignment reaches the environments below. -/
theorem environmentsBelow_assign_everywhere (groups : List Group) (hg : s.groups = groups)
    (he : s.Even) {c : Change} (hc : c.scope? = some .everywhere) :
    (s.apply c).environmentsBelow groups.length =
      (s.environmentsBelow groups.length).map (·.apply c) := by
  induction groups generalizing s with
  | nil => rfl
  | cons g outer ih =>
    -- closing the group leaves everything of the assignment, which then reaches the groups below in turn
    have hclosed := closeGroup_assign_everywhere he hg hc
    have htail : s.closeGroup.groups = outer := by rw [closeGroup, hg, List.tail_cons]
    simp only [List.length_cons, environmentsBelow, List.map_cons]
    rw [hclosed.environment, environment_assign _ hc, hclosed.environmentsBelow,
      ih htail he.closeGroup]

/-- **An assignment changes the current environment only, or all of them.** -/
theorem layers_assign (he : s.Even) {c : Change} {scope : Scope} (hc : c.scope? = some scope) :
    (s.apply c).layers = s.layers.assign scope (·.apply c) := by
  simp only [layers, groups_assign s hc, environment_assign s hc]
  cases scope with
  | inner =>
    cases hg : s.groups with
    | nil => rfl
    | cons g outer =>
      have hclosed := closeGroup_assign_inner he hg hc
      simp only [List.length_cons, environmentsBelow, hclosed.environment,
        hclosed.environmentsBelow, Layers.assign, Layers.mapCurrent]
  | everywhere =>
    rw [environmentsBelow_assign_everywhere s.groups rfl he hc]
    rfl

/-- **Opening a group duplicates the current environment.** -/
theorem layers_openGroup (s : Scopes) (g : Group) : (s.openGroup g).layers = s.layers.beginGroup := by
  have hclosed : (s.openGroup g).closeGroup.Alike s :=
    ⟨s.bindings.endGroup_beginGroup, s.store.endGroup_beginGroup⟩
  show Layers.mk s.environment ((s.openGroup g).environmentsBelow (s.groups.length + 1)) =
    ⟨s.environment, s.environment :: s.environmentsBelow s.groups.length⟩
  rw [environmentsBelow, hclosed.environment, hclosed.environmentsBelow]

/-- **Closing a group drops the current environment.** -/
theorem layers_closeGroup {g : Group} {outer : List Group} (hg : s.groups = g :: outer) :
    s.layers.endGroup? = some s.closeGroup.layers := by
  have htail : s.closeGroup.groups = outer := by rw [closeGroup, hg, List.tail_cons]
  simp only [layers, hg, htail, List.length_cons, environmentsBelow, Layers.endGroup?]

end Scopes

/-! ### Sequences of calls -/

/-- The open groups, innermost first, with a stack of complete environments. -/
structure Environments where
  groups : List GroupKind
  layers : Layers Environment

namespace Environments

/-- The environments of scopes. -/
def of (s : Scopes) : Environments := ⟨s.groups.map Group.kind, s.layers⟩

/-- Duplicates the current environment. -/
def beginGroup (e : Environments) (kind : GroupKind) : Environments :=
  ⟨kind :: e.groups, e.layers.beginGroup⟩

/-- Drops the current environment, if the innermost group has the given kind. -/
def endGroup (e : Environments) (kind : GroupKind) : Environments :=
  match e.groups, e.layers.endGroup? with
  | opened :: outer, some layers => if opened = kind then ⟨outer, layers⟩ else e
  | _, _ => e

/-- Makes an assignment in the current environment only, or in all of them. -/
def assign (e : Environments) (scope : Scope) (c : Scopes.Change) : Environments :=
  { e with layers := e.layers.assign scope (·.apply c) }

variable {s : Scopes}

theorem of_openGroup (s : Scopes) (g : Group) : of (s.openGroup g) = (of s).beginGroup g.kind :=
  congrArg (Environments.mk _) (s.layers_openGroup g)

theorem of_closeGroup {g : Group} {outer : List Group} (hg : s.groups = g :: outer) :
    of s.closeGroup = (of s).endGroup g.kind := by
  have hlayers := Scopes.layers_closeGroup hg
  simp only [endGroup, of, hg, List.map_cons, hlayers, if_true]
  rw [Scopes.closeGroup, hg, List.tail_cons]

theorem endGroup_of_ne {kind : GroupKind}
    (hkind : ∀ g outer, s.groups = g :: outer → g.kind ≠ kind) : (of s).endGroup kind = of s := by
  cases hg : s.groups with
  | nil => simp [endGroup, of, hg]
  | cons g outer => simp [endGroup, of, hg, Scopes.layers_closeGroup hg, hkind g outer hg]

theorem of_assign (he : s.Even) {c : Scopes.Change} {scope : Scope} (hc : c.scope? = some scope) :
    of (s.apply c) = (of s).assign scope c := by
  rw [of, s.groups_assign hc, Scopes.layers_assign he hc]
  rfl

end Environments

/-- A call that the interpreter or its host makes. -/
inductive GroupingCall where
  | beginGroup (kind : GroupKind) (opener : Token)
  | endGroup (kind : GroupKind) (closer : Token)
  | set (scope : Scope) (w : Store.Write)

namespace GroupingCall

/-- What a call does. -/
def run : GroupingCall → Run Unit
  | beginGroup kind opener => Run.beginGroup kind opener
  | endGroup kind closer => Run.endGroup kind closer
  | set scope w => Run.write scope w

/-- The machine after a call, which may have failed. -/
def perform (m : Machine) (c : GroupingCall) : Machine := (c.run m).2

/-- What a call does to a stack of complete environments. -/
def performOnEnvironments (e : Environments) : GroupingCall → Environments
  | beginGroup kind _ => e.beginGroup kind
  | endGroup kind _ => e.endGroup kind
  | set scope w => e.assign scope (.written scope w)

/-- Every call acts on the machine as on a stack of complete environments, and leaves all parts in
step. -/
theorem of_perform {m : Machine} (he : m.scopes.Even) (c : GroupingCall) :
    (perform m c).scopes.Even ∧
      Environments.of (perform m c).scopes = performOnEnvironments (Environments.of m.scopes) c := by
  cases c with
  | beginGroup kind opener =>
    rw [perform, run, Run.beginGroup_eval]
    exact ⟨he.openGroup _, Environments.of_openGroup _ _⟩
  | endGroup kind closer =>
    rw [perform, run, performOnEnvironments]
    -- a group of another kind is closed neither here nor there
    rcases Run.endGroup_eval kind closer m with ⟨⟨f, hf⟩, hkind⟩ | ⟨g, outer, hg, rfl, h⟩
    · rw [hf]
      exact ⟨he, (Environments.endGroup_of_ne hkind).symm⟩
    · rw [h]
      exact ⟨he.closeGroup, Environments.of_closeGroup hg⟩
  | set scope w => exact ⟨he.apply (c := .written scope w) trivial, Environments.of_assign he rfl⟩

/-- **Grouping is a stack of complete environments.** After any sequence of calls that open and close
groups and write variables, locally or globally, every command and every variable has the value that
it has in the stack of complete environments on which the same calls were performed. -/
theorem environment_foldl_perform (m : Machine) (he : m.scopes.Even) (calls : List GroupingCall) :
    (calls.foldl perform m).scopes.environment =
      (calls.foldl performOnEnvironments (Environments.of m.scopes)).layers.current := by
  -- what can be seen now does not tell what closing a group brings back: the induction is on the stacks
  suffices h : Environments.of (calls.foldl perform m).scopes =
      calls.foldl performOnEnvironments (Environments.of m.scopes) by
    rw [← h]
    rfl
  induction calls generalizing m with
  | nil => rfl
  | cons c rest ih =>
    have hc := of_perform he c
    rw [List.foldl_cons, List.foldl_cons, ih _ hc.1, hc.2]

/-- In the standard machine, of two writes of a register in a group only the global one lasts. -/
theorem int_after_group :
    ([.beginGroup .brace (.char .beginGroup '\x7b' none), .set .everywhere (.int (.count 1) 3),
      .set .inner (.int (.count 1) 4), .endGroup .brace (.char .endGroup '\x7d' none)].foldl perform
        Machine.standard).scopes.environment.int (.count 1) = 3 := by
  rw [environment_foldl_perform _ Machine.even_standard]
  simp [performOnEnvironments, Environments.beginGroup, Environments.endGroup, Environments.assign,
    Layers.beginGroup, Layers.endGroup?, Layers.assign, Layers.mapCurrent, Layers.mapAll,
    Environment.apply, Environment.write]

end GroupingCall

end Gullet
