import Gullet.Proofs.Number.Digits
import Gullet.Proofs.Stream.Keyword

/-!
# Constants

A constant is a run of digits, in front of which a mark tells the radix unless that is ten. With the signs
before it, it is read to its last digit, and one space after that is taken. The token that ends the digits
is looked at twice, to find the end of the digits and to find a space, and is put back if it is no space.
-/

namespace Gullet

open Lexer (Item)

/-- What stands in front of the digits of the radix. -/
def Radix.mark : Radix → List TokenValue
  | .decimal => []
  | .octal => [.char .other '\'']
  | .hexadecimal => [.char .other '"']

namespace Reader

variable {x : Expander} {m₀ m m' : Machine} {b : Bindings} {r : Radix} {signs mark ts us : List Token}
  {first : Token} {ds es opening : List Nat} {rest : List Item}

/-- Digits end at the end of the input, and before a token that is none of them. -/
theorem loop_digits_of_meets (h : m₀.Before rest m)
    (hends : m₀.Meets (fun v => ∀ d, ¬ v.IsDigit r d) rest) :
    ∃ m', (∀ n started, Run.loop (digitRound (Stream.expanded x) r) (n, started) m =
      (.ok (n, started), m')) ∧ m₀.Before rest m' := by
  match rest, hends with
  | [], _ =>
    obtain ⟨m', hend, h'⟩ := h.raw_end
    exact ⟨m', fun _ _ => loop_digits_of_end hend, h'⟩
  | .ok t :: rest, ⟨halone, hdigit⟩ =>
    obtain ⟨m₁, hraw, h₁⟩ := h.raw
    exact ⟨_, fun _ _ => loop_digits_of_other (digit?_eq_none_iff.2 hdigit) (h₁.expanded halone hraw),
      h₁.push [t]⟩

/-- The signs in front of a constant are read, and what starts it is left. -/
theorem signs_before_opening {start : Radix × Nat × Bool} (hsigns : ∀ t ∈ signs, t.IsSign)
    (hopens : opens? first.value = some start) (hm : m.Steady b)
    (h : Stream.raw.Supplies (signs ++ first :: us) m m') :
    ∃ m₁, Reader.signs (Stream.expanded x) m =
        (.ok (decide (Odd (signs.countP Token.isMinus))), m₁.push [first]) ∧
      Stream.raw (m₁.push [first]) = (.ok (some first), m₁) ∧ m₁.Steady b ∧
      Stream.raw.Supplies us m₁ m' := by
  obtain ⟨⟨c, hv⟩, hnone⟩ := opens?_spec hopens
  have hturn := turn_eq false signs
  rw [Bool.false_bne] at hturn
  rw [← hturn]
  exact signs_before hsigns ⟨_, _, hv⟩ hnone hm h

theorem numeral_singleton (d : Nat) : r.numeral [d] = d := Nat.ofDigits_singleton

theorem extend_numeral (opening es : List Nat) :
    r.extend (r.numeral opening) es = r.numeral (opening ++ es) := by
  rw [← Radix.extend_zero, ← Radix.extend_zero, Radix.extend_append]

/-- A constant that is a word is read, however it starts, with a space after it. -/
theorem number_of_opening (h : m₀.Before ((signs ++ first :: us).map .ok ++ rest) m)
    (hsigns : ∀ t ∈ signs, t.IsSign)
    (hopens : opens? first.value = some (r, r.numeral opening, !opening.isEmpty))
    (hus : List.Forall₂ (fun t d => t.value.IsDigit r d) us es) (hne : opening ++ es ≠ [])
    (hends : m₀.Meets (fun v => ∀ d, ¬ v.IsDigit r d) rest)
    (hfits : r.numeral (opening ++ es) ≤ 2147483647) :
    ∃ m', number x m = (.ok (if Odd (signs.countP Token.isMinus)
        then -(r.numeral (opening ++ es) : Int) else r.numeral (opening ++ es)), m') ∧
      m₀.Before (Stream.afterSpace rest) m' := by
  obtain ⟨m₁, hsupplies, h₁⟩ := h.supplies
  obtain ⟨m₂, hnegative, hfirst, hsteady, hdigits⟩ :=
    signs_before_opening (x := x) hsigns hopens h.steady hsupplies
  -- the token that ends the digits has been put back, so it is what a space is looked for in
  obtain ⟨m₃, hstop, h₃⟩ := loop_digits_of_meets (x := x) h₁ hends
  obtain ⟨blank, m', hspace, h'⟩ := h₃.takeSpace (x := x) hends
  have hstarted : (!opening.isEmpty || !us.isEmpty) = true := by
    cases opening with
    | cons d opening => rfl
    | nil =>
      cases hus with
      | nil => exact absurd rfl hne
      | cons => rfl
  have hread : digits (Stream.expanded x) r (r.numeral opening) (!opening.isEmpty) m₂ =
      (.ok (r.numeral (opening ++ es)), m₃) := by
    rw [← extend_numeral] at hfits ⊢
    have hfeeds : (Stream.expanded x).Feeds us m₂ m₁ := feeds_digits hus hsteady hdigits
    rw [digits_eq, Run.bind_of_ok ((loop_over_digits hus hfits _ hfeeds).trans (hstop _ _)), hstarted]
    rfl
  refine ⟨m', ?_, h'⟩
  rw [number_of_digits hopens hnegative hfirst hread hspace hfits]
  simp only [decide_eq_true_eq]

/-- A constant that is too great is refused, however it starts, at the first digit that makes it so. -/
theorem number_of_opening_error (h : m₀.Before ((signs ++ first :: us).map .ok ++ rest) m)
    (hsigns : ∀ t ∈ signs, t.IsSign)
    (hopens : opens? first.value = some (r, r.numeral opening, !opening.isEmpty))
    (hus : List.Forall₂ (fun t d => t.value.IsDigit r d) us es)
    (hopening : r.numeral opening ≤ 2147483647)
    (hgreat : 2147483647 < r.numeral (opening ++ es)) :
    ∃ before d t m', before ++ [d] <+: opening ++ es ∧ t ∈ us ∧ t.value.IsDigit r d ∧
      r.numeral before ≤ 2147483647 ∧ 2147483647 < r.numeral (before ++ [d]) ∧
      number x m = Run.fail (.expected (.smallerNumber r (r.numeral before) d) (some t)) m' := by
  obtain ⟨m₁, hsupplies, -⟩ := h.supplies
  obtain ⟨m₂, hnegative, hfirst, hsteady, hdigits⟩ :=
    signs_before_opening (x := x) hsigns hopens h.steady hsupplies
  rw [← extend_numeral] at hgreat
  obtain ⟨before, d, t, m', hprefix, hmem, ht, hbefore, hgreat', hloop⟩ :=
    loop_digits_error hus hopening hgreat (!opening.isEmpty)
      (feeds_digits (x := x) hus hsteady hdigits)
  rw [extend_numeral] at hbefore hgreat' hloop
  rw [← List.append_assoc] at hgreat'
  refine ⟨opening ++ before, d, t, m', ?_, hmem, ht, hbefore, hgreat', ?_⟩
  · rw [List.append_assoc]
    exact (List.prefix_append_right_inj opening).2 hprefix
  · rw [Run.fail_eval] at hloop ⊢
    exact number_of_digits_error hopens hnegative hfirst (Run.bind_of_error hloop)

/-- The first digit of a decimal number starts it. -/
theorem opens?_of_digit {d : Nat} (hfirst : first.value.IsDigit .decimal d) :
    opens? first.value = some (.decimal, Radix.decimal.numeral [d], !([d] : List Nat).isEmpty) := by
  rw [numeral_singleton]
  exact opens?_of_isDigit hfirst

/-- All radices but ten have a mark, of which nothing is read as a digit. -/
theorem mark_cases (r : Radix) :
    r = .decimal ∨ ∃ v, r.mark = [v] ∧ opens? v = some (r, r.numeral [], false) := by
  cases r with
  | decimal => exact .inl rfl
  | octal => exact .inr ⟨_, rfl, rfl⟩
  | hexadecimal => exact .inr ⟨_, rfl, rfl⟩

/-- A constant starts with its mark or, if it has none, with its first digit. -/
theorem opens_constant (hmark : mark.map (·.value) = r.mark)
    (hts : List.Forall₂ (fun t d => t.value.IsDigit r d) ts ds) (hds : ds ≠ []) :
    ∃ first us opening es, mark ++ ts = first :: us ∧ ds = opening ++ es ∧ us ⊆ ts ∧
      opens? first.value = some (r, r.numeral opening, !opening.isEmpty) ∧
      r.numeral opening ≤ 2147483647 ∧ List.Forall₂ (fun t d => t.value.IsDigit r d) us es := by
  rcases mark_cases r with rfl | ⟨v, hr, hopens⟩
  · obtain rfl : mark = [] := List.map_eq_nil_iff.1 hmark
    cases hts with
    | nil => exact absurd rfl hds
    | @cons first d us es hfirst hus =>
      have hlt : d < 10 := hfirst.1
      refine ⟨first, us, [d], es, rfl, rfl, List.subset_cons_self first us, opens?_of_digit hfirst, ?_,
        hus⟩
      rw [numeral_singleton]
      omega
  · rw [hr, List.map_eq_singleton_iff] at hmark
    obtain ⟨first, rfl, rfl⟩ := hmark
    exact ⟨first, ts, [], ds, rfl, rfl, List.Subset.refl ts, hopens, Nat.zero_le _, hts⟩

/-- **Constants are read whole.**

Let the remaining stream start with signs and a constant, in whatever radix, and then end, or go on with a
token that is neither expanded nor a digit of the radix. If the constant is a word, it is read as the
number that its digits stand for, turned round if the number of minus signs is odd, and what is left is
what follows it, without a space at the front. Otherwise the first digit that makes the number greater than
a word is refused. -/
theorem number_constant (x : Expander) (m : Machine) (r : Radix) (signs mark ts : List Token)
    (ds : List Nat) (rest : List Item) (hm : m.cancellation.raised = false)
    (ha : Input.Accounted m.input.sources) (hsigns : ∀ t ∈ signs, t.IsSign)
    (hmark : mark.map (·.value) = r.mark)
    (hts : List.Forall₂ (fun t d => t.value.IsDigit r d) ts ds) (hds : ds ≠ [])
    (hends : m.Meets (fun v => ∀ d, ¬ v.IsDigit r d) rest)
    (h : m.remaining = (signs ++ (mark ++ ts)).map .ok ++ rest) :
    (r.numeral ds ≤ 2147483647 →
      ∃ m', number x m = (.ok (if Odd (signs.countP Token.isMinus)
          then -(r.numeral ds : Int) else r.numeral ds), m') ∧
        m'.remaining = Stream.afterSpace rest ∧ m.SameButInput m') ∧
    (2147483647 < r.numeral ds →
      ∃ before d t m', before ++ [d] <+: ds ∧ t ∈ ts ∧ t.value.IsDigit r d ∧
        r.numeral before ≤ 2147483647 ∧ 2147483647 < r.numeral (before ++ [d]) ∧
        number x m = Run.fail (.expected (.smallerNumber r (r.numeral before) d) (some t)) m') := by
  obtain ⟨first, us, opening, es, htokens, rfl, hsubset, hopens, hopening, hus⟩ :=
    opens_constant hmark hts hds
  rw [htokens] at h
  have hbefore : m.Before ((signs ++ first :: us).map .ok ++ rest) m := ⟨rfl, h, ha, hm⟩
  constructor
  · intro hfits
    obtain ⟨m', hnumber, h'⟩ :=
      number_of_opening (x := x) hbefore hsigns hopens hus hds hends hfits
    exact ⟨m', hnumber, h'.remaining, h'.same⟩
  · intro hgreat
    obtain ⟨before, d, t, m', hprefix, hmem, hrefused⟩ :=
      number_of_opening_error (x := x) hbefore hsigns hopens hus hopening hgreat
    exact ⟨before, d, t, m', hprefix, hsubset hmem, hrefused⟩

/-- The number `-127` after two signs, with one of its digits a letter and a space after it. -/
theorem number_constant_hexadecimal :
    let signs : List Token := [.char .other '+' none, .char .space ' ' none, .char .other '-' none]
    let mark : List Token := [.char .other '"' none]
    let ts : List Token := [.char .other '7' none, .char .letter 'F' none]
    let rest : List Token := [.char .space ' ' none, .char .letter 'F' none]
    ∃ m', number expand (Machine.ready.push (signs ++ (mark ++ ts) ++ rest)) = (.ok (-127), m') ∧
      m'.remaining = [.ok (.char .letter 'F' none)] := by
  intro signs mark ts rest
  have hsigns : ∀ t ∈ signs, t.IsSign := by
    simp [signs, Token.IsSign, Token.char, TokenValue.isSpace]
  have hts : List.Forall₂ (fun t d => t.value.IsDigit .hexadecimal d) ts [7, 15] :=
    .cons ⟨by decide, .inl rfl⟩ (.cons ⟨by decide, .inr ⟨by decide, rfl⟩⟩ .nil)
  have hends : (Machine.ready.push (signs ++ (mark ++ ts) ++ rest)).Meets
      (fun v => ∀ d, ¬ v.IsDigit .hexadecimal d) (rest.map .ok) :=
    ⟨nofun, digit?_eq_none_iff.1 rfl⟩
  have hremaining : (Machine.ready.push (signs ++ (mark ++ ts) ++ rest)).remaining =
      (signs ++ (mark ++ ts)).map .ok ++ rest.map .ok := by
    rw [Machine.remaining_push, List.map_append]
    exact List.append_nil _
  have hodd : Odd (signs.countP Token.isMinus) := by decide
  obtain ⟨m', hnumber, hleft, -⟩ := (number_constant expand _ .hexadecimal signs mark ts [7, 15] _ rfl
    (Machine.accounted_ready _) hsigns rfl hts (List.cons_ne_nil _ _) hends hremaining).1 (by decide)
  rw [if_pos hodd] at hnumber
  exact ⟨m', hnumber, hleft⟩

end Reader

end Gullet
