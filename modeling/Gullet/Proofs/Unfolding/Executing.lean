import Gullet.Proofs.Macro.WellFormed
import Gullet.Proofs.Scopes.Balance
import Gullet.Proofs.Unfolding.Coupling
import Gullet.Proofs.Unfolding.Expansion
import Gullet.Session

/-!
# Relations that execution respects

To the acts of expansion, execution adds those that assign, open and close groups, give something out and
use up the prefixes that wait. A relation between actions that respects these acts too is respected by
every command, and by the reading of whole documents.

Some acts a relation need not respect. Only a prefix command makes prefixes wait, and what is said about
prefixes mostly holds of all other commands. Text is written for characters alone, by no primitive. A name
is bound to no macro but one that is well formed, unless it was bound before. And numbers are written
by assignments and by arithmetic alone; where it does not matter which number is written, or that one can
be too large, nothing need be said of them.
-/

namespace Gullet

namespace Event

/-- An event that says nothing about groups. -/
@[grind] def IsPlain (e : Event) : Prop := ∀ g, e ≠ .beginGroup g ∧ e ≠ .endGroup g

/-- An event by which no text is written. -/
@[grind] def IsSilent (e : Event) : Prop := ∀ text settings, e ≠ .write text settings

end Event

/-- The change binds no macro but one that is well formed, and writes no number. -/
def Scopes.Change.IsTame : Scopes.Change → Prop
  | .bound _ _ command => command.WellFormed
  | .written _ (.int _ _) | .written _ (.dimen _ _) => False
  | _ => True

namespace Machine.LooksLike

variable {m n : Machine}

theorem handlers (h : m.LooksLike n) : n.handlers = m.handlers := by rw [h.others]

theorem prefixes (h : m.LooksLike n) : n.prefixes = m.prefixes := by rw [h.others]

theorem styling (h : m.LooksLike n) : n.styling = m.styling := by rw [h.others]

end Machine.LooksLike

namespace Run

@[grind .] theorem respects_verbatim {P : Relation} [Compositional P] (t : Token) :
    (Typesetting.verbatim t).Respects P := by
  have hs : Stream.raw.Respects P := respects_raw
  refine (relates_nextOr hs _).bind fun first => ?_
  split
  · exact respects_fail _
  · refine Relates.loop (fun sofar => (relates_nextOr hs _).bind fun next => ?_) _
    grind

/-- A relation that is respected by the acts of execution, but for making prefixes wait, and for writing
text and numbers. -/
class Enacting (P : Relation) : Prop extends Converting P where
  /-- Giving out an event. -/
  emit {e : Event} (he : e.IsPlain) (hs : e.IsSilent) : P (Run.emit e) (Run.emit e)
  /-- Giving out something that is no event. -/
  put (f : Output → Output) (hf : ∀ o, (f o).events = o.events) :
    P (modify fun m => { m with output := f m.output })
      (modify fun m => { m with output := f m.output })
  /-- Assigning something, or changing the settings in effect. -/
  change {c : Scopes.Change} (hc : c.IsPlain) (ht : c.IsTame) :
    P (Run.change c) (Run.change c)
  /-- Binding a reference to what another token stands for. -/
  bindToken (scope : Scope) (ref : CommandRef) (t : Token) :
    P (Run.bindToken scope ref t) (Run.bindToken scope ref t)
  beginGroup (kind : GroupKind) (opener : Token) :
    P (Run.beginGroup kind opener) (Run.beginGroup kind opener)
  endGroup (kind : GroupKind) (closer : Token) :
    P (Run.endGroup kind closer) (Run.endGroup kind closer)
  /-- Using up prefixes. -/
  spend (f : Prefixes → Prefixes) (hf : f {} = {}) :
    P (modify fun m => { m with prefixes := f m.prefixes })
      (modify fun m => { m with prefixes := f m.prefixes })
  /-- Choosing what happens to characters. -/
  handle (handlers : Handlers) : P (modify fun m => { m with handlers })
    (modify fun m => { m with handlers })
  /-- Reading with the categories of verbatim text. -/
  verbatim (t : Token) : P (Typesetting.withVerbatimCodes (Typesetting.verbatim t))
    (Typesetting.withVerbatimCodes (Typesetting.verbatim t))

/-- A relation that is respected by the writing of any variable, too. -/
class Assigning (P : Relation) : Prop extends Enacting P where
  write (scope : Scope) (w : Store.Write) : P (Run.write scope w) (Run.write scope w)

/-- A relation that is respected by the commands that write numbers, too. -/
class Executing (P : Relation) : Prop extends Enacting P where
  assign (scope : Scope) (v : Variable) :
    P (Assignment.assign scope v) (Assignment.assign scope v)
  arithmetic (op : Arithmetic) (t : Token) :
    P (Assignment.arithmetic op t) (Assignment.arithmetic op t)

/-- A relation that is respected by the writing of text, too. -/
class Writing (P : Relation) : Prop extends Executing P where
  write (text : String) (settings : Settings) :
    P (Run.emit (.write text settings)) (Run.emit (.write text settings))

variable {P : Relation} [Enacting P] {α : Type}

/-! ### Acts of the machine -/

@[grind .] theorem respects_emit {e : Event} (he : e.IsPlain) (hs : e.IsSilent) :
    (emit e).Respects P := Enacting.emit he hs

@[grind .] theorem respects_recoverable (f : Fault) : (recoverable f).Respects P := by
  refine .get (fun m n h => by rw [h.policy, h.atlas, h.styling]) fun m => ?_
  split
  · have hwarning : (emit (.warning (.ofFault m.atlas f))).Respects P :=
      respects_emit (by simp [Event.IsPlain]) (by simp [Event.IsSilent])
    exact hwarning.bind fun _ => respects_writeLog _
  · exact respects_fail f
  · exact Enacting.put (P := P) (fun o => { o with tallied := o.tallied + 1 }) fun _ => rfl

theorem respects_bindRef (scope : Scope) (ref : CommandRef) {command : Command}
    (hd : command.WellFormed) : (bindRef scope ref command).Respects P :=
  Enacting.change (c := .bound scope ref command) trivial hd

@[grind .] theorem respects_bindToken (scope : Scope) (ref : CommandRef) (t : Token) :
    (bindToken scope ref t).Respects P := Enacting.bindToken scope ref t

theorem respects_writeTokenList (scope : Scope) (index : Nat) (ts : List Token) :
    (write scope (.tokenList index ts)).Respects P :=
  Enacting.change (c := .written scope (.tokenList index ts)) trivial trivial

theorem respects_writeCatCode (scope : Scope) (codePoint : Nat) (code : CatCode) :
    (write scope (.catCode codePoint code)).Respects P :=
  Enacting.change (c := .written scope (.catCode codePoint code)) trivial trivial

@[grind .] theorem respects_mapSettings (f : Settings → Settings) : (mapSettings f).Respects P :=
  .get (fun m n h => by rw [h.scopes]) fun m =>
    Enacting.change (P := P) (c := .restyled (f m.scopes.currentSettings)) trivial trivial

@[grind .] theorem respects_beginGroup (kind : GroupKind) (opener : Token) :
    (beginGroup kind opener).Respects P := Enacting.beginGroup kind opener

@[grind .] theorem respects_endGroup (kind : GroupKind) (closer : Token) :
    (endGroup kind closer).Respects P := Enacting.endGroup kind closer

/-! ### Actions that use up prefixes -/

/-- The action uses up prefixes, so that of those that wait `rest` are left, and goes on in a way that
respects the relation. -/
def UsesUp (P : Relation) (rest : Prefixes → Prefixes) (a : Run α) : Prop :=
  ∃ after : Machine → Run α, (∀ m n, m.LooksLike n → after n = after m) ∧
    (∀ m, (after m).Respects P) ∧
    a = do
      let m ← get
      modify fun m => { m with prefixes := rest m.prefixes }
      after m

/-- What is left of the prefixes when the scope of an assignment has been taken. -/
def unscoped (p : Prefixes) : Prefixes := { p with everywhere := false }

omit [Enacting P] in
/-- The scope is the first thing that an assignment takes. -/
theorem usesUp_of_takeScope {after : Scope → Run α} (h : ∀ scope, (after scope).Respects P) :
    (takeScope >>= after).UsesUp P unscoped :=
  ⟨fun m => after (if m.prefixes.everywhere then .everywhere else .inner),
    fun m n h => by dsimp only; rw [h.prefixes], fun _ => h _, rfl⟩

/-- An action that uses up prefixes respects the relation. -/
theorem UsesUp.respects {rest : Prefixes → Prefixes} {a : Run α} (h : a.UsesUp P rest)
    (hrest : rest {} = {}) : a.Respects P := by
  obtain ⟨after, hseen, hafter, rfl⟩ := h
  refine .get (fun m n h => by rw [hseen m n h]) fun m => ?_
  exact Relates.bind (P := P) (Enacting.spend rest hrest) fun _ => hafter m

end Run

/-! ### Couplings -/

namespace Coupling

variable {ι : Type} {C : Coupling ι} [C.Expanding]

namespace Couples

theorem change (c : Scopes.Change) : C.Couples (Run.change c) (Run.change c) :=
  .incidental {}

theorem emit (e : Event) : C.Couples (Run.emit e) (Run.emit e) :=
  .incidental {}

theorem endGroup (kind : GroupKind) (closer : Token) :
    C.Couples (Run.endGroup kind closer) (Run.endGroup kind closer) := by
  refine .get fun m n h => ?_
  rw [h.scopes]
  split
  · exact .fail _
  · split
    · exact .fail _
    · exact (change _).bind fun _ => emit _

/-- The categories are those of verbatim text in both runs, and afterwards those that were before. -/
theorem withVerbatimCodes {α : Type} {a a' : Run α} (ha : C.Couples a a') :
    C.Couples (Typesetting.withVerbatimCodes a) (Typesetting.withVerbatimCodes a') := by
  have hchange (c : Scopes.Change) : Machine.Incidental fun m => m.change c :=
    {}
  refine ⟨fun {i m n} hmn => ?_, fun m => ?_⟩
  · have hcodes : n.scopes.store.catCodes = m.scopes.store.catCodes := by
      rw [(Lawful.looksLike hmn).scopes]
    have hin := ha.meets (Lawful.incidental (hchange .verbatim) hmn)
    let restore : Machine → Machine := fun m' => m'.change (.restored m.scopes.store.catCodes)
    unfold Typesetting.withVerbatimCodes
    rw [hcodes]
    exact hin.map (f := restore) (g := restore) (Lawful.incidental (hchange _))
      fun hp => Lawful.parted hp (Lawful.incidental_stays (hchange _) _)
  · exact trans_of C.Stays (Lawful.incidental_stays (hchange .verbatim) m)
      (trans_of C.Stays (ha.stays _) (Lawful.incidental_stays (hchange _) _))

end Couples

/-- Such a coupling is respected by all that execution is made of, too. -/
instance (C : Coupling ι) [C.Expanding] : Run.Enacting C.Coupled where
  emit _ _ := .emit _
  put _ _ := .incidental {}
  change _ _ := .change _
  bindToken _ _ _ := .get fun m n h => by
    rw [h.scopes]
    exact .change _
  beginGroup _ _ := (Couples.change _).bind fun _ => .emit _
  endGroup := .endGroup
  spend _ _ := .incidental {}
  handle _ := .incidental {}
  verbatim t := .withVerbatimCodes (Run.respects_verbatim (P := C.Coupled) t)

instance (C : Coupling ι) [C.Expanding] : Run.Assigning C.Coupled where
  write _ _ := .change _

end Coupling

end Gullet
