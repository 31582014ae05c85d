import Gullet.Proofs.Unfolding.Execution

/-!
# Conditionals that a document leaves open

When a document has been read, groups that are still open are closed, but branches of conditionals stay
open. So the next document is read over them. It does not notice, and leaves them as they are, unless one
of its dividers has no conditional in the document: alone it would be refused, but now it closes a branch
of an earlier document.
-/

namespace Gullet

/-- The machine over branches of conditionals that are open already. -/
def Machine.over (m : Machine) (outer : List Branch) : Machine :=
  { m with branches := m.branches ++ outer }

/-- The run is stopped by a divider that has no conditional. -/
def Halt.IsUnexpectedDivider (halt : Halt) : Prop :=
  ∃ d t divider, halt = .failed d ∧ d.fault = .unexpectedDivider t divider

/-- The coupling of machines of which the second one is over further open branches. -/
def overlying : Coupling (List Branch) where
  Joins outer m n := n = m.over outer
  First := Halt.IsUnexpectedDivider
  Second _ := False
  Parted _ _ := False
  Stays _ _ := True

namespace overlying

open Coupling

/-- Progress has nothing to do with branches. -/
theorem paced_over (m : Machine) (outer : List Branch) : overlying.Paced m (m.over outer) where
  first h hm hn := by
    subst h
    exact absurd hn hm
  second h hm hn := by
    subst h
    exact absurd hm hn

instance : overlying.Lawful where
  refl _ := trivial
  trans _ _ _ _ _ := trivial
  looksLike h := by
    subst h
    exact ⟨rfl, rfl, rfl⟩
  incidental {f} hf outer m n h := by
    subst h
    have hsame : (f m).branches = m.branches := congrArg (·.branches) (hf.branches m m.branches)
    show f (m.over outer) = (f m).over outer
    unfold Machine.over
    rw [hf.branches, hsame]
  incidental_stays _ _ := trivial
  deepen _ outer m n h := by
    subst h
    rfl
  deepen_stays _ _ := trivial
  parted h _ := h
  first_within h atlas operation t := by
    obtain ⟨d, t', divider, hd, hfault⟩ := h
    cases hd
    exact ⟨_, t', divider, rfl, hfault⟩
  second_within h := h.elim
  paced h := by
    subst h
    exact paced_over _ _
  exists_paced m := ⟨m.over [], paced_over m []⟩
  enter l outer m n h := by
    subst h
    refine ⟨outer, rfl, fun _ h' => ?_, id⟩
    subst h'
    rfl
  region_stays _ _ _ _ := trivial

/-- Something is done to both machines that has nothing to do with the branches that were open. -/
theorem couples_modify {f : Machine → Machine}
    (hf : ∀ (m : Machine) outer, f (m.over outer) = (f m).over outer) :
    overlying.Couples (α := PUnit) (modify f) (modify f) := by
  refine .update (fun {outer m n} h => ?_) fun _ => trivial
  subst h
  exact hf m outer

theorem couples_leave {after after' : Branch → Run Unit} (t : Token) (d : Divider)
    (h : ∀ b, overlying.Couples (after b) (after' b)) :
    overlying.Couples (Conditional.leave t d after) (Conditional.leave t d after') := by
  refine ⟨fun {outer m n} hmn => ?_, fun _ => trivial⟩
  have hbranches : n.branches = m.branches ++ outer := by rw [hmn]; rfl
  unfold Conditional.leave
  rw [Run.get_bind_eval, Run.get_bind_eval, hbranches]
  cases hopen : m.branches with
  | nil =>
    have hstops : overlying.First (.failed (.ofFault m.atlas (.unexpectedDivider t d))) :=
      ⟨_, t, d, rfl, rfl⟩
    exact .first hstops m _
  | cons b bs =>
    dsimp only [List.cons_append]
    split
    · -- the branch that is closed was not open before
      have hclosed : overlying.Joins outer { m with branches := m.branches.tail }
          { n with branches := n.branches.tail } := by
        show ({ n with branches := n.branches.tail } : Machine) =
          { m with branches := m.branches.tail ++ outer }
        rw [hbranches, hmn, hopen]
        rfl
      exact (h b).meets hclosed
    · exact (Couples.fail _).meets hmn

instance : overlying.Expanding where
  raw := .raw_of_reading (fun {outer m n} h => .inr ⟨by rw [h]; rfl, by rw [h]; rfl, by
    subst h
    rfl⟩) fun _ => trivial
  pushTokens _ := couples_modify fun _ _ => rfl
  openSource _ _ := couples_modify fun _ _ => rfl
  endInput := couples_modify fun _ _ => rfl
  openBranch _ := couples_modify fun _ _ => rfl
  leave := couples_leave
  count := .count_of_level (fun h => by rw [h]; rfl) (couples_modify fun _ _ => rfl)
  nested t? ha := ha.nested_of_level (fun h => by rw [h]; rfl) t?

end overlying

namespace Session

theorem closeGroups_over (groups : List Group) (m : Machine) (outer : List Branch) :
    closeGroups groups (m.over outer) = (closeGroups groups m).over outer := by
  induction groups generalizing m with
  | nil => rfl
  | cons g rest ih => exact ih ((m.change (.closed g)).emit (.endGroup g))

theorem unwind_over (m : Machine) (outer : List Branch) :
    unwind (m.over outer) = (unwind m).over outer := by
  have hclose := closeGroups_over m.scopes.groups { m with input := {} } outer
  exact congrArg (fun m => { m with expansionDepth := 0, fullExpansions := 0 }) hclose

/-- **Branches that are open when a document is read stay open.**

Over branches that are open already, a document is read with the same outcome as without them, and they
are still open below those that the document itself leaves open; except that where the document is stopped
by a divider that has no conditional in it, such a branch may be closed instead. -/
theorem parse_over (handlers : Handlers) (origin : Origin) (content : String) (m : Machine)
    (outer : List Branch) :
    parse handlers origin content (m.over outer) =
        ((parse handlers origin content m).1, (parse handlers origin content m).2.over outer) ∨
      ∃ halt, (parse handlers origin content m).1 = .error halt ∧ halt.IsUnexpectedDivider := by
  have hmodifier (kind : PrefixKind) (t : Token) :
      (Assignment.modifier kind t).Respects overlying.Coupled :=
    Run.respects_prefixModifier kind t fun _ => overlying.couples_modify fun _ _ => rfl
  have hdocument : overlying.Couples (document handlers origin content)
      (document handlers origin content) :=
    Run.respects_document (P := overlying.Coupled) hmodifier handlers origin content
  let started : Machine := { m with handlers, expansions := 0, history := [] }
  have hmeets := hdocument.meets (show overlying.Joins outer started (started.over outer) from rfl)
  show (let p := document handlers origin content (started.over outer)
    (p.1, (unwind p.2).emit .endParse)) = _ ∨ _
  unfold parse
  generalize document handlers origin content started = p,
    document handlers origin content (started.over outer) = q at hmeets
  cases hmeets with
  | same r h =>
    left
    subst h
    dsimp only
    rw [unwind_over]
    rfl
  | first h m' q => exact .inr ⟨_, rfl, h⟩
  | second h p n' => exact h.elim
  | parted h q => exact h.elim

end Session

end Gullet
