import Gullet.Proofs.Unfolding.Coupling
import Gullet.Proofs.Unfolding.Expansion

/-!
# Room for expansion

How many expansions have been counted, and how deeply they are nested, decides whether an expansion is
refused, and nothing else. So what is expanded without being refused is expanded in the same way where
there is more room for it.

The machines with little and with much room are coupled. Whatever stops the run with little room is an
exception; so nothing need be said of failures, and only the limits themselves need a closer look.
-/

namespace Gullet

/-- The machines are the same, but on the second one `spare` expansions fewer have been counted, and it is
not nested deeper. On the first one not too many have been counted. -/
structure Machine.Roomier (spare : Nat) (m n : Machine) : Prop where
  others : n = { m with expansions := n.expansions, expansionDepth := n.expansionDepth }
  expansions : m.expansions = n.expansions + spare
  expansionDepth : n.expansionDepth ≤ m.expansionDepth
  allowed : m.expansions ≤ m.config.maxExpansions

namespace Machine.Roomier

variable {spare : Nat} {m n m' n' : Machine}

theorem config (h : m.Roomier spare n) : n.config = m.config := by rw [h.others]

theorem input (h : m.Roomier spare n) : n.input = m.input := by rw [h.others]

theorem scopes (h : m.Roomier spare n) : n.scopes = m.scopes := by rw [h.others]

theorem looksLike (h : m.Roomier spare n) : m.LooksLike n where
  others := by rw [h.others]
  expansionEnabled := by rw [h.input]
  fileCount := by rw [h.input]

/-- Something is done to both machines that has nothing to do with the limits. -/
theorem map {f : Machine → Machine}
    (hf : ∀ m expansions expansionDepth,
      f { m with expansions, expansionDepth } = { f m with expansions, expansionDepth })
    (hconfig : ∀ m, (f m).config = m.config) (h : m.Roomier spare n) :
    Roomier spare (f m) (f n) := by
  have hm : f m = { f m with expansions := m.expansions, expansionDepth := m.expansionDepth } := hf m _ _
  have hn : f n = { f m with expansions := n.expansions, expansionDepth := n.expansionDepth } :=
    (congrArg f h.others).trans (hf m _ _)
  have hcount : (f m).expansions = m.expansions := by rw [hm]
  have hlevel : (f m).expansionDepth = m.expansionDepth := by rw [hm]
  refine ⟨by rw [hn], ?_, ?_, ?_⟩
  · rw [hcount, hn]
    exact h.expansions
  · rw [hlevel, hn]
    exact h.expansionDepth
  · rw [hcount, hconfig]
    exact h.allowed

/-- Both machines go deeper, or come up again. -/
theorem deepen {f : Nat → Nat} (hf : ∀ ⦃a b⦄, a ≤ b → f a ≤ f b) (h : m.Roomier spare n) :
    Roomier spare { m with expansionDepth := f m.expansionDepth }
      { n with expansionDepth := f n.expansionDepth } where
  others := by rw [h.others]
  expansions := h.expansions
  expansionDepth := hf h.expansionDepth
  allowed := h.allowed

/-- As long as not too many expansions have been counted, both machines make progress alike. -/
theorem progress_of (h : m.Roomier spare n) (h' : m'.Roomier spare n') (hp : Run.Progress m m') :
    Run.Progress n n' := by
  have hallowed := h.allowed
  have hallowed' := h'.allowed
  have hexpansions := h.expansions
  have hexpansions' := h'.expansions
  unfold Run.Progress Machine.expansionsLeft at hp ⊢
  rw [h.config, h.input, h'.config, h'.input]
  omega

theorem inRegion (h : m.Roomier spare n) (l : TokenList) :
    Roomier spare (m.inRegion l) (n.inRegion l) where
  others := by
    rw [h.others]
    rfl
  expansions := h.expansions
  expansionDepth := Nat.succ_le_succ h.expansionDepth
  allowed := h.allowed

theorem leaveRegion (h : m.Roomier spare n) (h' : m'.Roomier spare n') :
    Roomier spare (m.leaveRegion m') (n.leaveRegion n') where
  others := by
    unfold Machine.leaveRegion
    rw [h.input, h'.others]
    rfl
  expansions := h'.expansions
  expansionDepth := Nat.sub_le_sub_right h'.expansionDepth 1
  allowed := h'.allowed

theorem hasRead (h : m.Roomier spare n) :
    n.reading.result = m.reading.result ∧ n.reading.comments = m.reading.comments ∧
      Roomier spare m.hasRead n.hasRead := by
  have hreading : n.reading = m.reading := by
    rw [h.others]
    rfl
  refine ⟨by rw [hreading], by rw [hreading], ?_⟩
  unfold Machine.hasRead
  rw [hreading]
  exact h.map (f := fun k => { k with input := ⟨m.reading.sources⟩ }) (fun _ _ _ => rfl) fun _ => rfl

end Machine.Roomier

/-- The coupling of machines of which the second one has more room. -/
def leeway (spare : Nat) : Coupling Unit where
  Joins _ := Machine.Roomier spare
  First _ := True
  Second _ := False
  Parted _ _ := False
  Stays _ _ := True

namespace leeway

open Coupling

variable {spare : Nat}

/-- For any machine there is one on which everything that can follow is progress. -/
theorem exists_paced (m : Machine) : ∃ n, (leeway spare).Paced m n := by
  let n : Machine :=
    { m with expansions := 0, config := { m.config with maxExpansions := m.expansionsLeft + spare } }
  refine ⟨n, fun _ _ _ => trivial, fun {_ m' n'} h hp hn => hn (.inl ?_)⟩
  have hallowed := h.allowed
  have hexpansions := h.expansions
  have hleft : n.expansionsLeft = m.expansionsLeft + spare + 1 := rfl
  rw [hleft]
  unfold Run.Progress at hp
  unfold Machine.expansionsLeft at hp ⊢
  rw [h.config]
  omega

instance : (leeway spare).Lawful where
  refl _ := trivial
  trans _ _ _ _ _ := trivial
  looksLike h := h.looksLike
  parted h _ := h
  incidental hf _ _ _ h := Machine.Roomier.map hf.counters hf.config h
  incidental_stays _ _ := trivial
  deepen hf _ _ _ h := Machine.Roomier.deepen hf h
  deepen_stays _ _ := trivial
  first_within _ _ _ _ := trivial
  second_within h := h.elim
  paced h := ⟨fun _ _ _ => trivial, fun h' hm hn => hn (Machine.Roomier.progress_of h h' hm)⟩
  exists_paced := exists_paced
  enter l _ _ _ h := ⟨(), Machine.Roomier.inRegion h l, fun _ h' => Machine.Roomier.leaveRegion h h', id⟩
  region_stays _ _ _ _ := trivial

theorem couples_modify {f : Machine → Machine}
    (hf : ∀ m expansions expansionDepth,
      f { m with expansions, expansionDepth } = { f m with expansions, expansionDepth })
    (hconfig : ∀ m, (f m).config = m.config) :
    (leeway spare).Couples (α := PUnit) (modify f) (modify f) :=
  .update (Machine.Roomier.map hf hconfig) fun _ => trivial

/-- One more expansion is counted on both machines, unless it is one too many on the first one. -/
theorem couples_count (t : Token) :
    (leeway spare).Couples (Expansion.count t) (Expansion.count t) := by
  refine ⟨fun {_ m n} h => ?_, fun _ => trivial⟩
  have hexpansions := h.expansions
  unfold Expansion.count
  rw [Run.modify_bind_eval, Run.modify_bind_eval, Run.get_bind_eval, Run.get_bind_eval]
  by_cases hm : m.config.maxExpansions < m.expansions + 1
  · rw [if_pos hm]
    exact .first trivial _ _
  · have hn : ¬n.config.maxExpansions < n.expansions + 1 := by
      rw [h.config]
      omega
    rw [if_neg hm, if_neg hn]
    have hcounted : Machine.Roomier spare { m with expansions := m.expansions + 1 }
        { n with expansions := n.expansions + 1 } :=
      ⟨by rw [h.others], by dsimp only; omega, h.expansionDepth, Nat.le_of_not_lt hm⟩
    exact .same (.ok PUnit.unit) hcounted

/-- What is not nested too deep on the first machine is not on the second one. -/
theorem couples_nested {α : Type} {a a' : Run α} (t? : Option Token) (ha : (leeway spare).Couples a a') :
    (leeway spare).Couples (Run.nested t? a) (Run.nested t? a') := by
  refine ⟨fun {_ m n} h => ?_, fun _ => trivial⟩
  unfold Run.nested
  rw [Run.get_bind_eval, Run.get_bind_eval, h.config]
  by_cases hm : m.config.maxExpansionDepth ≤ m.expansionDepth
  · rw [if_pos hm]
    exact .first trivial _ _
  · have hn : ¬m.config.maxExpansionDepth ≤ n.expansionDepth :=
      fun hle => hm (Nat.le_trans hle h.expansionDepth)
    rw [if_neg hm, if_neg hn]
    exact ha.meets h

instance : (leeway spare).Expanding where
  raw := .raw_of_reading (fun h => .inr h.hasRead) fun _ => trivial
  pushTokens _ := couples_modify (fun _ _ _ => rfl) fun _ => rfl
  openSource _ _ := couples_modify (fun _ _ _ => rfl) fun _ => rfl
  endInput := couples_modify (fun _ _ _ => rfl) fun _ => rfl
  openBranch _ := couples_modify (fun _ _ _ => rfl) fun _ => rfl
  leave t d h := .leave t d (fun h' => by rw [h'.others]) (couples_modify (fun _ _ _ => rfl) fun _ => rfl) h
  count := couples_count
  nested := couples_nested

/-- A run that is stopped may be coupled with any other one. -/
theorem couples_throw {α : Type} (halt : Halt) (a : Run α) :
    (leeway spare).Couples (throw halt : Run α) a := ⟨fun _ => .first trivial _ _, fun _ => trivial⟩

/-- Expansion may be given more levels. -/
theorem couples_expandWithin {levels levels' : Nat} (h : levels ≤ levels') (t : Token) :
    (leeway spare).Couples (Expansion.expandWithin levels t) (Expansion.expandWithin levels' t) := by
  induction levels generalizing levels' t with
  | zero => exact couples_throw .outOfSteps _
  | succ levels ih =>
    obtain ⟨k, rfl⟩ := Nat.exists_eq_add_of_lt h
    have hle : levels ≤ levels + k := Nat.le_add_right levels k
    exact Run.relates_expandWithin_succ (P := (leeway spare).Coupled) (fun t => ih hle t) t

/-- What an action gives it gives where there is more room, too. -/
theorem ok_of_couples {α : Type} {a a' : Run α} (ha : (leeway spare).Couples a a') {m m' n : Machine}
    {x : α} (hn : m.Roomier spare n) (h : a m = (.ok x, m')) :
    ∃ n', a' n = (.ok x, n') ∧ m'.Roomier spare n' := by
  have hmeets := ha.meets (i := ()) hn
  rw [h] at hmeets
  generalize ha' : a' n = q at hmeets
  cases hmeets with
  | same r h' => exact ⟨_, rfl, h'⟩
  | second h' => exact h'.elim
  | parted h' => exact h'.elim

end leeway

/-- **What is expanded is expanded in the same way where there is more room.** -/
theorem Expansion.expandWithin_of_roomier {spare levels levels' : Nat} {t : Token} {m m' n : Machine}
    {held : Option Token} (hn : m.Roomier spare n) (hlevels : levels ≤ levels')
    (h : expandWithin levels t m = (.ok held, m')) :
    ∃ n', expandWithin levels' t n = (.ok held, n') ∧ m'.Roomier spare n' :=
  leeway.ok_of_couples (leeway.couples_expandWithin hlevels t) hn h

end Gullet
