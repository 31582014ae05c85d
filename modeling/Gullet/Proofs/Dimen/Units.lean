import Gullet.Proofs.Stream.Keyword
import Gullet.Reader.Dimen

/-!
# Reading units

After a number stands a unit or a variable. What is read there does not depend on the number, which
multiplies it afterwards. Of the abbreviations of units none starts with another one, so the one that comes
next is found, in whatever order they are tried. Where none comes next, each attempt puts back what it
read, and nothing but spaces has been taken after the last one.
-/

namespace Gullet

open Lexer (Item)

namespace Reader

variable {x : Expander} {m₀ m : Machine} {ts spaces : List Token} {items rest : List Item}
  {entry : String × LengthUnit}

/-! ### What a number multiplies -/

/-- Reads what a number multiplies: a unit, or the length that a variable holds. -/
def factor (x : Expander) : Run (LengthUnit ⊕ Dimen) := do
  let s := Stream.expanded x
  s.skipSpaces
  let next ← s
  match next with
  | some t@⟨.command ref, _⟩ =>
    match ← internalNumber (numberAt x) t ref with
    | .integer n => return .inr ⟨n⟩
    | .dimen d => return .inr d
  | _ =>
    next.forM Run.pushBack
    _ ← s.keyword "true"
    let u ← unit s
    _ ← s.takeSpace
    return .inl u

/-- The length that a number makes of what it multiplies; `none` if it is too large. -/
def multiply? (whole : Int) (part : Dimen) : LengthUnit ⊕ Dimen → Option Dimen
  | .inl u => u.times? whole part
  | .inr v => do
    let (f, _) ← v.scaleBy? part.scaled 65536
    v.mulAdd? whole f

/-- What is multiplied is read whatever the number is. -/
theorem scaled_eq (x : Expander) (whole : Int) (part : Dimen) :
    scaled x whole part = (do return multiply? whole part (← factor x)) := by
  unfold scaled factor
  simp only [bind_assoc]
  refine bind_congr fun _ => bind_congr fun next => ?_
  rcases next with _ | ⟨_ | ref, key⟩
  · simp only [bind_assoc, pure_bind]
    rfl
  · simp only [bind_assoc, pure_bind]
    rfl
  · dsimp only
    rw [bind_assoc]
    refine bind_congr fun v => ?_
    cases v <;> rfl

/-! ### Units -/

/-- No abbreviation of a unit starts with another one. -/
theorem not_prefix_of_mem_all : ∀ e ∈ LengthUnit.all, ∀ e' ∈ LengthUnit.all, e ≠ e' →
    ¬ e.1.toList.map Char.toLower <+: e'.1.toList.map Char.toLower := by
  decide +kernel

/-- No abbreviation of a unit starts with `true`, nor does that start with one. -/
theorem not_prefix_true : ∀ e ∈ LengthUnit.all,
    ¬ e.1.toList.map Char.toLower <+: "true".toList.map Char.toLower ∧
      ¬ "true".toList.map Char.toLower <+: e.1.toList.map Char.toLower := by
  decide +kernel

theorem toList_ne_nil_of_mem_all : ∀ e ∈ LengthUnit.all, e.1.toList ≠ [] := by
  decide +kernel

/-- The unit whose abbreviation comes next is found among those that are still to be tried. -/
theorem go_spelled (entries : List (String × LengthUnit)) (hsub : entries ⊆ LengthUnit.all)
    (hmem : entry ∈ entries) (spaces : List Token)
    (h : m₀.Before (spaces.map .ok ++ (ts.map .ok ++ rest)) m)
    (hspaces : ∀ t ∈ spaces, t.value.isSpace = true) (hts : Stream.Spells entry.1.toList ts) :
    ∃ m', unit.go (Stream.expanded x) entries m = (.ok entry.2, m') ∧ m₀.Before rest m' := by
  have hentry := hsub hmem
  have hmeets : m₀.Meets (·.isSpace = false) (ts.map .ok ++ rest) :=
    hts.meets (toList_ne_nil_of_mem_all _ hentry)
  induction entries generalizing m spaces with
  | nil => cases hmem
  | cons e entries ih =>
    obtain ⟨word, u⟩ := e
    unfold unit.go
    by_cases he : (word, u) = entry
    · subst he
      obtain ⟨m', hkeyword, h'⟩ := h.keyword_spelled (x := x) spaces word hspaces hmeets hts
      exact ⟨m', Run.bind_of_ok hkeyword, h'⟩
    · obtain ⟨hall, hsub⟩ := List.cons_subset.1 hsub
      obtain ⟨m₁, hkeyword, h₁⟩ := h.keyword_lacking (x := x) spaces word hspaces hmeets
        (hts.lacks (not_prefix_of_mem_all _ hentry _ hall (Ne.symm he))
          (not_prefix_of_mem_all _ hall _ hentry he))
      -- the spaces are taken by the first keyword that is tried, and not put back
      obtain ⟨m', hrest, h'⟩ := ih hsub (List.mem_of_ne_of_mem (Ne.symm he) hmem) [] h₁
        (List.forall_mem_nil _)
      exact ⟨m', (Run.bind_of_ok hkeyword).trans hrest, h'⟩

/-- Where no abbreviation comes next, what comes next is reported, and nothing but spaces is taken. -/
theorem go_lacking (entries : List (String × LengthUnit)) (spaces : List Token)
    (hfirst : entries = [] → spaces = []) (h : m₀.Before (spaces.map .ok ++ items) m)
    (hspaces : ∀ t ∈ spaces, t.value.isSpace = true) (hmeets : m₀.Meets (·.isSpace = false) items)
    (hlacks : ∀ e ∈ entries, m₀.Lacks e.1.toList items) :
    ∃ next m', unit.go (Stream.expanded x) entries m = Run.fail (.expected .unit next) m' ∧
      Stream.head items = .ok next ∧ m₀.Before items m' := by
  induction entries generalizing m spaces with
  | nil =>
    obtain rfl := hfirst rfl
    obtain ⟨next, m', hpeek, hhead, h'⟩ := h.peek (x := x) hmeets
    exact ⟨next, m', Run.bind_of_ok hpeek, hhead, h'⟩
  | cons e entries ih =>
    obtain ⟨he, hlacks⟩ := List.forall_mem_cons.1 hlacks
    obtain ⟨m₁, hkeyword, h₁⟩ := h.keyword_lacking (x := x) spaces e.1 hspaces hmeets he
    -- the spaces are taken by the first keyword that is tried, and not put back
    obtain ⟨next, m', hrest, hhead, h'⟩ := ih [] (fun _ => rfl) h₁ (List.forall_mem_nil _) hlacks
    refine ⟨next, m', ?_, hhead, h'⟩
    unfold unit.go
    exact (Run.bind_of_ok hkeyword).trans hrest

/-- Where the abbreviation of a unit comes next, this unit is multiplied, and a space after it is taken. -/
theorem factor_spelled {p : TokenValue → Prop} (spaces : List Token)
    (h : m₀.Before (spaces.map .ok ++ (ts.map .ok ++ rest)) m)
    (hspaces : ∀ t ∈ spaces, t.value.isSpace = true) (hentry : entry ∈ LengthUnit.all)
    (hts : Stream.Spells entry.1.toList ts) (hrest : m₀.Meets p rest) :
    ∃ m', factor x m = (.ok (.inl entry.2), m') ∧ m₀.Before (Stream.afterSpace rest) m' := by
  have hne := toList_ne_nil_of_mem_all _ hentry
  have hmeets : m₀.Meets (·.isSpace = false) (ts.map .ok ++ rest) := hts.meets hne
  obtain ⟨category, c, key, us, rfl, -⟩ := hts.exists_char hne
  obtain ⟨m₁, hskip, h₁⟩ := h.skipSpaces (x := x) hspaces hmeets
  -- the first character is put back after it has been looked at, and again by each keyword
  obtain ⟨m₂, hraw, h₂⟩ := h₁.raw
  obtain ⟨hword, htrue⟩ := not_prefix_true _ hentry
  obtain ⟨m₃, hkeyword, h₃⟩ := (h₂.push [⟨.char category c, key⟩]).keyword_lacking (x := x)
    [] "true" (List.forall_mem_nil _) hmeets (hts.lacks hword htrue)
  obtain ⟨m₄, hgo, h₄⟩ := go_spelled (x := x) LengthUnit.all (List.Subset.refl _) hentry [] h₃
    (List.forall_mem_nil _) hts
  have hunit : unit (Stream.expanded x) m₃ = (.ok entry.2, m₄) := hgo
  obtain ⟨blank, m', htake, h'⟩ := h₄.takeSpace (x := x) hrest
  have hback : (some (Token.mk (.char category c) key)).forM Run.pushBack m₂ =
      (.ok ⟨⟩, m₂.push [⟨.char category c, key⟩]) := Run.pushBack_eval _ m₂
  refine ⟨m', ?_, h'⟩
  unfold factor
  rw [Run.bind_of_ok hskip, Run.bind_of_ok (Run.expanded_of_char hraw rfl)]
  refine (Run.bind_of_ok hback).trans ?_
  rw [Run.bind_of_ok hkeyword, Run.bind_of_ok hunit, Run.bind_of_ok htake]
  rfl

/-! ### Units in a stream of tokens -/

theorem unit_next (h : m₀.Before (ts.map .ok) m) (hentry : entry ∈ LengthUnit.all)
    (hnext : Stream.ComesNext entry.1 (Stream.afterSpaces ts)) :
    ∃ m', unit (Stream.expanded x) m = (.ok entry.2, m') ∧
      m₀.Before (((Stream.afterSpaces ts).drop entry.1.length).map .ok) m' := by
  have hbefore := h.apart
  rw [← List.take_append_drop entry.1.length (Stream.afterSpaces ts), List.map_append] at hbefore
  exact go_spelled LengthUnit.all (List.Subset.refl _) hentry _ hbefore
    (fun _ => List.mem_takeWhile_imp) (Stream.comesNext_iff.1 hnext)

theorem unit_absent (h : m₀.Before (ts.map .ok) m) (halone : ∀ t ∈ ts, m₀.LeavesAlone t)
    (habsent : ∀ e ∈ LengthUnit.all, ¬ Stream.ComesNext e.1 (Stream.afterSpaces ts)) :
    ∃ m', unit (Stream.expanded x) m =
        Run.fail (.expected .unit (Stream.afterSpaces ts).head?) m' ∧
      m₀.Before ((Stream.afterSpaces ts).map .ok) m' := by
  obtain ⟨next, m', hunit, hhead, h'⟩ := go_lacking (x := x) LengthUnit.all _
    (fun hnil => absurd hnil (List.cons_ne_nil _ _)) h.apart (fun _ => List.mem_takeWhile_imp)
    (Stream.meets_afterSpaces halone)
    fun e he => Stream.lacks_of_not_comesNext halone (habsent e he)
  rw [Stream.head_map_ok] at hhead
  obtain rfl := Except.ok.inj hhead
  exact ⟨m', hunit, h'⟩

/-- **Keywords are taken exactly where they come next.**

Let nothing that is left to be read be expanded, as in a stream of characters. Whatever word is looked for,
it is found if and only if the tokens after the spaces at the front are letters or other characters that
write it, up to the case of ASCII letters; then these tokens have been taken with the spaces, and otherwise
the spaces alone. So a unit is read where its abbreviation comes next; where none does, the token that
comes next is reported, and it is still there. -/
theorem keyword_and_unit_exact (x : Expander) (m : Machine) (ts : List Token)
    (hm : m.cancellation.raised = false) (ha : Input.Accounted m.input.sources)
    (halone : ∀ t ∈ ts, m.LeavesAlone t) (h : m.remaining = ts.map .ok) :
    (∀ word, ∃ found m', (Stream.expanded x).keyword word m = (.ok found, m') ∧
      (found = true ↔ Stream.ComesNext word (Stream.afterSpaces ts)) ∧
      m'.remaining =
        ((Stream.afterSpaces ts).drop (if found then word.length else 0)).map .ok ∧
      m.SameButInput m') ∧
    (∀ entry ∈ LengthUnit.all, Stream.ComesNext entry.1 (Stream.afterSpaces ts) →
      ∃ m', unit (Stream.expanded x) m = (.ok entry.2, m') ∧
        m'.remaining = ((Stream.afterSpaces ts).drop entry.1.length).map .ok ∧
        m.SameButInput m') ∧
    ((∀ entry ∈ LengthUnit.all, ¬ Stream.ComesNext entry.1 (Stream.afterSpaces ts)) →
      ∃ m', unit (Stream.expanded x) m =
          (.error (.failed (.ofFault m.atlas (.expected .unit (Stream.afterSpaces ts).head?))), m') ∧
        m'.remaining = (Stream.afterSpaces ts).map .ok ∧ m.SameButInput m') := by
  have hbefore : m.Before (ts.map .ok) m := ⟨rfl, h, ha, hm⟩
  refine ⟨fun word => ?_, fun entry hentry hnext => ?_, fun habsent => ?_⟩
  · by_cases hnext : Stream.ComesNext word (Stream.afterSpaces ts)
    · obtain ⟨m', hkeyword, h'⟩ := hbefore.keyword_next (x := x) halone hnext
      exact ⟨true, m', hkeyword, iff_of_true rfl hnext, h'.remaining, h'.same⟩
    · obtain ⟨m', hkeyword, h'⟩ := hbefore.keyword_absent (x := x) halone hnext
      exact ⟨false, m', hkeyword, iff_of_false Bool.false_ne_true hnext, h'.remaining, h'.same⟩
  · obtain ⟨m', hunit, h'⟩ := unit_next (x := x) hbefore hentry hnext
    exact ⟨m', hunit, h'.remaining, h'.same⟩
  · obtain ⟨m', hunit, h'⟩ := unit_absent (x := x) hbefore halone habsent
    refine ⟨m', hunit.trans ?_, h'.remaining, h'.same⟩
    rw [Run.fail_eval, h'.same]

/-- Where `Ccm` comes next, that is no `cm`, but the unit `cc` before an `m`; and `p` at the end of the
input is no unit. -/
theorem keyword_and_unit_exact_cicero :
    let ccm : List Token :=
      [.char .space ' ' none, .char .letter 'C' none, .char .other 'c' none, .char .letter 'm' none]
    let p : List Token := [.char .space ' ' none, .char .letter 'p' none]
    (∃ m', (Stream.expanded expand).keyword "cm" (Machine.ready.push ccm) = (.ok false, m') ∧
      m'.remaining = (ccm.drop 1).map .ok) ∧
    (∃ m', unit (Stream.expanded expand) (Machine.ready.push ccm) = (.ok .cicero, m') ∧
      m'.remaining = (ccm.drop 3).map .ok) ∧
    ∃ halt m', unit (Stream.expanded expand) (Machine.ready.push p) = (.error halt, m') ∧
      m'.remaining = (p.drop 1).map .ok := by
  intro ccm p
  have halone (ts : List Token) (hchars : ∀ t ∈ ts, ∃ category c, t.value = .char category c) :
      ∀ t ∈ ts, (Machine.ready.push ts).LeavesAlone t := by
    intro t ht
    obtain ⟨_, _, hv⟩ := hchars t ht
    exact Machine.leavesAlone_of_char hv
  have hremaining (ts : List Token) : (Machine.ready.push ts).remaining = ts.map .ok :=
    (Machine.before_ready.push ts).remaining.trans (List.append_nil _)
  obtain ⟨hkeyword, hunit, -⟩ := keyword_and_unit_exact expand (Machine.ready.push ccm) ccm rfl
    (Machine.accounted_ready _) (halone ccm (by simp [ccm, Token.char])) (hremaining ccm)
  obtain ⟨-, -, hfails⟩ := keyword_and_unit_exact expand (Machine.ready.push p) p rfl
    (Machine.accounted_ready _) (halone p (by simp [p, Token.char])) (hremaining p)
  refine ⟨?_, ?_, ?_⟩
  · obtain ⟨found, m', hread, hfound, hleft, -⟩ := hkeyword "cm"
    have habsent : ¬ Stream.ComesNext "cm" (Stream.afterSpaces ccm) := by decide +kernel
    obtain rfl := Bool.eq_false_iff.2 (habsent ∘ hfound.1)
    exact ⟨m', hread, hleft⟩
  · obtain ⟨m', hread, hleft, -⟩ := hunit ("cc", .cicero) (by decide) (by decide +kernel)
    exact ⟨m', hread, hleft⟩
  · obtain ⟨m', hread, hleft, -⟩ := hfails (by decide +kernel)
    exact ⟨_, m', hread, hleft⟩

end Reader

end Gullet
