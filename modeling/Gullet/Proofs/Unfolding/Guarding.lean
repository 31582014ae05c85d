import Gullet.Proofs.Unfolding.Execution
import Gullet.Proofs.Unfolding.Keeping

/-!
# Invariants, and what holds where a run stops

An action is guarded if it keeps an invariant of machines, and if, wherever it stops, a condition holds of
the reason and of the machine that it has reached. If the acts of expansion that can stop are guarded, so
is everything that is put together from them. Execution adds hardly any act that can stop.
-/

namespace Gullet

/-- The second machine has the invariant if the first one has it. -/
def Machine.Inherits (I : Machine → Prop) (m m' : Machine) : Prop := I m → I m'

/-- An invariant that the acts of expansion keep, and a condition on stopping that they respect. -/
class Machine.Guard (I : Machine → Prop) (E : Halt → Machine → Prop) : Prop where
  unfolding : Machine.Unfolding (Machine.Inherits I)
  /-- Nothing is demanded where a run stops in good order. -/
  orderly (halt : Halt) (h : halt.IsOrderly) (m : Machine) : E halt m
  raw {halt : Halt} {m m' : Machine} (hm : I m) (h : Stream.raw m = (.error halt, m')) : E halt m'
  enterRegion {m : Machine} (l : TokenList) (h : I m) : I (m.inRegion l)
  leaveRegion {halt : Halt} {m' : Machine} (m : Machine) (h : E halt m') : E halt (m.leaveRegion m')
  /-- Neither concerns how deeply expansions are nested. -/
  nest {m : Machine} (expansionDepth fullExpansions : Nat) (h : I m) :
    I { m with expansionDepth, fullExpansions }
  unnest {halt : Halt} {m : Machine} (expansionDepth fullExpansions : Nat) (h : E halt m) :
    E halt { m with expansionDepth, fullExpansions }

/-- An invariant that the acts of execution keep, too. -/
class Machine.ExecutionGuard (I : Machine → Prop) (E : Halt → Machine → Prop) : Prop
    extends Machine.Guard I E where
  /-- Nothing matters but the input, the limits and what is subject to grouping. -/
  alter (m : Machine) {n : Machine} (hinput : n.input = m.input) (hconfig : n.config = m.config)
    (hscopes : n.scopes = m.scopes) (h : I m) : I n
  change {m : Machine} {c : Scopes.Change} (hc : c.IsTame) (h : I m) : I (m.change c)
  bindToken {m : Machine} (scope : Scope) (ref : CommandRef) (v : TokenValue) (h : I m) :
    I (m.change (.bound scope ref (m.scopes.bindings.meaningOf v)))
  /-- The condition does not concern the categories of characters. -/
  restore {halt : Halt} {m : Machine} (codes : ScopedMap Nat CatCode) (h : E halt m) :
    E halt (m.change (.restored codes))

namespace Run

variable {α β : Type} {I : Machine → Prop} {E : Halt → Machine → Prop}

/-- The action leads from the machine to one with the invariant, and where it stops, the condition
holds. -/
structure GuardedAt (I : Machine → Prop) (E : Halt → Machine → Prop) (a : Run α) (m : Machine) :
    Prop where
  invariant : I (a m).2
  excuse (halt : Halt) (h : (a m).1 = .error halt) : E halt (a m).2

/-- The first of two actions keeps the invariant, and where it stops, the condition holds. -/
def Guarding (I : Machine → Prop) (E : Halt → Machine → Prop) : Relation :=
  fun _ a _ => ∀ m, I m → a.GuardedAt I E m

/-! ### Runs from a given machine -/

namespace GuardedAt

variable {m m' : Machine}

theorem of_ok {a : Run α} {x : α} (h : a m = (.ok x, m')) (hm : I m') : a.GuardedAt I E m where
  invariant := by
    rw [h]
    exact hm
  excuse halt hr := by
    rw [h] at hr
    cases hr

theorem of_error {a : Run α} {halt : Halt} (h : a m = (.error halt, m')) (hm : I m')
    (he : E halt m') : a.GuardedAt I E m where
  invariant := by
    rw [h]
    exact hm
  excuse halt hr := by
    rw [h] at hr ⊢
    cases hr
    exact he

/-- An action that does the same on another machine is guarded there as well. -/
theorem congr {a a' : Run α} {n : Machine} (ha : a.GuardedAt I E n) (h : a' m = a n) :
    a'.GuardedAt I E m where
  invariant := by
    rw [h]
    exact ha.invariant
  excuse halt hr := by
    rw [h] at hr ⊢
    exact ha.excuse halt hr

/-- What follows need only be guarded on the machine that the first part leads to. -/
theorem bind {a : Run α} {f : α → Run β} (ha : a.GuardedAt I E m)
    (hf : ∀ {x m'}, a m = (.ok x, m') → I m' → (f x).GuardedAt I E m') :
    (a >>= f).GuardedAt I E m := by
  obtain ⟨hinvariant, hexcuse⟩ := ha
  cases hr : a m with
  | mk result m' =>
    rw [hr] at hinvariant hexcuse
    cases result with
    | error halt => exact of_error (bind_of_error hr) hinvariant (hexcuse halt rfl)
    | ok x => exact (hf hr hinvariant).congr (bind_of_ok hr)

/-- An action that is run between two acts that cannot stop. -/
theorem bracket {a b : Run α} {n : Machine} (after : Machine → Machine)
    (ha : a.GuardedAt I E n) (hb : b m = ((a n).1, after (a n).2)) (hi : ∀ {m'}, I m' → I (after m'))
    (he : ∀ {halt m'}, E halt m' → E halt (after m')) : b.GuardedAt I E m where
  invariant := by
    rw [hb]
    exact hi ha.invariant
  excuse halt h := by
    rw [hb] at h ⊢
    exact he (ha.excuse halt h)

theorem during {a : Run α} (operation : Operation) (t : Token) [Machine.Guard I E]
    (ha : a.GuardedAt I E m) : (Run.during operation t a).GuardedAt I E m := by
  obtain ⟨hinvariant, hexcuse⟩ := ha
  cases hr : a m with
  | mk result m' =>
    rw [hr] at hinvariant hexcuse
    cases result with
    | ok x => exact of_ok (during_of_ok operation t hr) hinvariant
    | error halt =>
      have hduring : Run.during operation t a m = _ := tryCatch_eval a _ m
      rw [hr] at hduring
      cases halt with
      | failed d => exact of_error hduring hinvariant (Machine.Guard.orderly I (.failed _) trivial m')
      | overflow => exact of_error hduring hinvariant (hexcuse _ rfl)
      | reversedSlice => exact of_error hduring hinvariant (hexcuse _ rfl)
      | outOfSteps => exact of_error hduring hinvariant (hexcuse _ rfl)

end GuardedAt

section

variable [hguard : Machine.Guard I E]

theorem guardedAt_throw {h : Halt} (hh : h.IsOrderly) {m : Machine} (hm : I m) :
    (throw h : Run α).GuardedAt I E m := .of_error rfl hm (hguard.orderly h hh m)

theorem guardedAt_fail (f : Fault) {m : Machine} (hm : I m) : (fail f : Run α).GuardedAt I E m :=
  .of_error rfl hm (hguard.orderly (.failed _) trivial m)

/-! ### Repetition -/

theorem GuardedAt.loop {step : β → Run (β ⊕ α)} (h : ∀ b m, I m → (step b).GuardedAt I E m) (b : β)
    {m : Machine} (hm : I m) : (Run.loop step b).GuardedAt I E m := by
  induction m using progress_induction generalizing b with
  | h m ih =>
    obtain ⟨hinvariant, hexcuse⟩ := h b m hm
    cases hs : step b m with
    | mk result m' =>
      rw [hs] at hinvariant hexcuse
      rcases result with halt | b' | a
      · exact .of_error (loop_of_error hs) hinvariant (hexcuse halt rfl)
      · by_cases hp : Progress m m'
        · exact (ih m' hp b' hinvariant).congr (loop_of_progress hs hp)
        · exact .of_error (loop_of_stall hs hp) hinvariant (hguard.orderly .outOfSteps trivial m')
      · exact .of_ok (loop_of_answer hs) hinvariant

theorem GuardedAt.fix {body : Run α → Run α}
    (h : ∀ again : Run α, (∀ m, I m → again.GuardedAt I E m) → ∀ m, I m →
      (body again).GuardedAt I E m) {m : Machine} (hm : I m) : (Run.fix body).GuardedAt I E m := by
  induction m using progress_induction with
  | h m ih =>
    refine (h (fun m' => if Progress m m' then Run.fix body m' else (.error .outOfSteps, m'))
      (fun m' hm' => ?_) m hm).congr (fix_eq body m)
    by_cases hp : Progress m m'
    · exact (ih m' hp hm').congr (if_pos hp)
    · exact .of_error (if_neg hp) hm' (hguard.orderly .outOfSteps trivial m')

/-! ### The acts of expansion -/

omit hguard in
/-- An act that cannot stop need only keep the invariant. -/
theorem guarding_of_ok {a : Run α} (hkeeps : a.Keeps (Machine.Inherits I))
    (hok : ∀ m, ∃ x, (a m).1 = .ok x) {m : Machine} (hm : I m) : a.GuardedAt I E m :=
  have ⟨_, hx⟩ := hok m
  .of_ok (Prod.ext hx rfl) (hkeeps m hm)

theorem guardedAt_raw {m : Machine} (hm : I m) : Stream.raw.GuardedAt I E m where
  invariant :=
    have := hguard.unfolding
    keeps_raw (R := Machine.Inherits I) m hm
  excuse _ h := hguard.raw hm (Prod.ext h rfl)

theorem GuardedAt.nested {a : Run α} (t? : Option Token) {m : Machine} (hm : I m)
    (ha : a.GuardedAt I E m) : (Run.nested t? a).GuardedAt I E m := by
  unfold Run.nested
  refine GuardedAt.bind (.of_ok (get_eval m) hm) fun hr _ => ?_
  cases hr
  split
  · exact guardedAt_fail _ hm
  · exact ha

/-- Whatever is put together from the acts of expansion is guarded. -/
instance : Compositional (Guarding I E) :=
  have hunfolding := hguard.unfolding
  have hact {a : Run PUnit} (hkeeps : a.Keeps (Machine.Inherits I))
      (hok : ∀ m, ∃ x, (a m).1 = .ok x) : Guarding I E a a := fun _ hm => guarding_of_ok hkeeps hok hm
  { pure := fun x m hm => .of_ok (pure_eval x m) hm
    throw := fun hh _ hm => guardedAt_throw hh hm
    bind := fun ha hf m hm => (ha m hm).bind fun hr hm' => hf _ ⟨_, _, hr⟩ _ hm'
    get := fun h m hm => (h m m (.refl m) m hm).congr (get_bind_eval _ m)
    during := fun operation t ha m hm => (ha m hm).during operation t
    loop := fun h b _ hm => .loop h b hm
    fix := fun h _ hm => .fix (fun again hagain => h again again hagain) hm
    raw := fun _ hm => guardedAt_raw hm
    pushTokens := fun ts => hact (keeps_pushTokens ts) fun _ => ⟨_, rfl⟩
    announce := fun path => hact (keeps_announce path) fun _ => ⟨_, rfl⟩
    writeLog := fun s => hact (keeps_writeLog s) fun _ => ⟨_, rfl⟩
    writeTerminal := fun s => hact (keeps_writeTerminal s) fun _ => ⟨_, rfl⟩
    name := fun {_ a _} ref ha m hm => by
      refine GuardedAt.bind (.of_ok (lookup_eval ref m) hm) fun hr _ => ?_
      cases hr
      split
      · exact ha m hm
      · rename_i hundefined
        have hbound := hunfolding.name m (Bool.eq_false_iff.2 hundefined) hm
        exact GuardedAt.bind (.of_ok rfl hbound) fun hr hm' => by
          cases hr
          exact ha _ hm'
    openBranch := fun b => hact (keeps_modify fun m => hunfolding.openBranch m b) fun _ => ⟨_, rfl⟩
    leave := fun {a _} t d h m hm => by
      refine GuardedAt.bind (.of_ok (get_eval m) hm) fun hr _ => ?_
      cases hr
      split
      · split
        · refine GuardedAt.bind (.of_ok rfl (hunfolding.closeBranch m hm)) fun hr hm' => ?_
          cases hr
          exact h _ _ hm'
        · exact guardedAt_fail _ hm
      · exact guardedAt_fail _ hm
    count := fun t m hm => by
      refine GuardedAt.bind (.of_ok rfl (hunfolding.count m hm)) fun hr hm' => ?_
      cases hr
      refine GuardedAt.bind (.of_ok (get_eval _) hm') fun hr _ => ?_
      cases hr
      split
      · exact guardedAt_fail _ hm'
      · exact .of_ok (pure_eval _ _) hm'
    openSource := fun origin content => hact (keeps_openSource origin content) fun _ => ⟨_, rfl⟩
    endInput := hact (keeps_modify hunfolding.endInput) fun _ => ⟨_, rfl⟩
    region := fun l ha m hm => by
      rw [region_eq_nested]
      exact .nested _ hm ((ha _ (hguard.enterRegion l hm)).bracket m.leaveRegion rfl
        (fun h => hunfolding.region l (fun _ => h) hm) (hguard.leaveRegion m))
    deeper := fun t ha m hm => by
      rw [deeper_eq_nested]
      exact .nested _ hm ((ha _ (hguard.nest _ m.fullExpansions hm)).bracket
        (fun m' => { m' with expansionDepth := m'.expansionDepth - 1 }) rfl
        (hguard.nest _ _) (hguard.unnest _ _))
    shielding := fun ha m hm =>
      (ha _ (hguard.nest m.expansionDepth _ hm)).bracket
        (fun m' => { m' with fullExpansions := m'.fullExpansions - 1 }) rfl
        (hguard.nest _ _) (hguard.unnest _ _) }

end

/-! ### The acts of execution -/

section

variable [hguard : Machine.ExecutionGuard I E]

omit hguard in
/-- An action that changes the machine, and does nothing else. -/
theorem guardedAt_modify {f : Machine → Machine} {m : Machine} (h : I (f m)) :
    (modify f : Run PUnit).GuardedAt I E m := .of_ok rfl h

theorem guardedAt_change {c : Scopes.Change} (hc : c.IsTame) {m : Machine} (hm : I m) :
    (Run.change c).GuardedAt I E m := guardedAt_modify (hguard.change hc hm)

theorem guardedAt_emit (e : Event) {m : Machine} (hm : I m) : (emit e).GuardedAt I E m :=
  guardedAt_modify (hguard.alter m rfl rfl rfl hm)

theorem guardedAt_endGroup (kind : GroupKind) (closer : Token) {m : Machine} (hm : I m) :
    (endGroup kind closer).GuardedAt I E m := by
  rcases endGroup_eval kind closer m with ⟨⟨f, hf⟩, -⟩ | ⟨g, outer, -, -, h⟩
  · exact (guardedAt_fail f hm).congr hf
  · let m' := m.change (.closed { g with closer := some closer })
    exact .of_ok h (hguard.alter m' rfl rfl rfl (hguard.change (c := .closed _) trivial hm))

theorem guardedAt_withVerbatimCodes {a : Run α} (ha : ∀ m, I m → a.GuardedAt I E m) {m : Machine}
    (hm : I m) : (Typesetting.withVerbatimCodes a).GuardedAt I E m :=
  (ha _ (hguard.change (c := .verbatim) trivial hm)).bracket
    (fun m' => m'.change (.restored m.scopes.store.catCodes)) rfl
    (hguard.change (c := .restored _) trivial) (hguard.restore _)

/-- Whatever writes no number is guarded, if what `\the` puts in front of the input is. -/
theorem enacting_guarding (hvalue : ∀ {x : Expander}, (∀ t, (x t).Respects (Guarding I E)) → ∀ t,
      (Conversion.value x t).Respects (Guarding I E)) : Enacting (Guarding I E) where
  value := hvalue
  emit _ _ _ hm := guardedAt_emit _ hm
  put _ _ m hm := guardedAt_modify (hguard.alter m rfl rfl rfl hm)
  change _ ht _ hm := guardedAt_change ht hm
  bindToken scope ref t m hm :=
    (GuardedAt.of_ok (get_eval m) hm).bind fun hr _ => by
      cases hr
      exact guardedAt_modify (hguard.bindToken scope ref t.value hm)
  beginGroup _ _ _ hm := (guardedAt_change (c := .opened _) trivial hm).bind fun _ => guardedAt_emit _
  endGroup kind closer _ hm := guardedAt_endGroup kind closer hm
  spend _ _ m hm := guardedAt_modify (hguard.alter m rfl rfl rfl hm)
  handle _ m hm := guardedAt_modify (hguard.alter m rfl rfl rfl hm)
  verbatim t _ hm := guardedAt_withVerbatimCodes (respects_verbatim (P := Guarding I E) t) hm

end

end Run

end Gullet
