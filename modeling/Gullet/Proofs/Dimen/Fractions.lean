import Gullet.Proofs.Dimen.Decimals
import Gullet.Proofs.Number.Digits
import Gullet.Proofs.Run.Looping
import Gullet.Proofs.Stream.Keyword
import Gullet.Proofs.Taking.Expansion
import Gullet.Reader.Dimen
import Mathlib.Data.Rat.Floor
import Mathlib.Tactic.FieldSimp

/-!
# Reading fractions

All decimals after a point are read, but only the first seventeen of them are kept. The others do not
count: a fraction is first rounded down to halves of a scaled point, of which `2^17` make a point, and as
`10^17` is a multiple of `2^17`, seventeen decimals never make less than a whole number of halves without
the others doing so too.
-/

namespace Gullet

open Lexer (Item)

namespace Dimen

variable {ds es : List Nat}

/-! ### Rounding -/

/-- The fraction that decimals stand for. -/
def exactFraction : List Nat → ℚ
  | [] => 0
  | d :: ds => (d + exactFraction ds) / 10

theorem exactFraction_eq (ds : List Nat) :
    exactFraction ds = (numeral ds : ℚ) / (10 ^ ds.length : Nat) := by
  induction ds with
  | nil => simp [exactFraction]
  | cons d ds ih =>
    have hpos : ((10 ^ ds.length : Nat) : ℚ) ≠ 0 := by positivity
    rw [exactFraction, ih, numeral_cons, List.length_cons, Nat.pow_succ]
    push_cast
    field_simp

/-- **Decimals are rounded down to halves of a scaled point, and these to the nearest scaled point.** -/
theorem scaled_ofDecimalFraction (ds : List Nat) :
    (ofDecimalFraction ds).scaled = ⌊((⌊2 ^ 17 * exactFraction ds⌋ : ℚ) + 1) / 2⌋ := by
  have hhalves : ⌊2 ^ 17 * exactFraction ds⌋ = ((131072 * numeral ds / 10 ^ ds.length : Nat) : Int) := by
    rw [exactFraction_eq, ← mul_div_assoc]
    have hcast : (2 ^ 17 * numeral ds : ℚ) = ((131072 * numeral ds : Nat) : ℚ) := by
      push_cast
      norm_num
    rw [hcast, Rat.floor_natCast_div_natCast, Int.natCast_div]
  have hround (n : Nat) : ⌊(((n : Int) : ℚ) + 1) / 2⌋ = ((n + 1) / 2 : Nat) := by
    have hcast : (((n : Int) : ℚ) + 1) / 2 = ((n + 1 : Nat) : ℚ) / ((2 : Nat) : ℚ) := by
      push_cast
      rfl
    rw [hcast, Rat.floor_natCast_div_natCast, Int.natCast_div]
  rw [hhalves, hround]
  unfold ofDecimalFraction
  rw [foldr_fraction]

/-! ### Decimals that do not count -/

theorem numeral_append (ds es : List Nat) :
    numeral (ds ++ es) = numeral ds * 10 ^ es.length + numeral es := by
  unfold numeral
  rw [List.reverse_append, Nat.ofDigits_append, List.length_reverse, Nat.mul_comm, Nat.add_comm]

theorem numeral_lt (h : ∀ d ∈ ds, d < 10) : numeral ds < 10 ^ ds.length := by
  unfold numeral
  rw [← List.length_reverse]
  exact Nat.ofDigits_lt_base_pow_length (by decide) fun d hd => h d (List.mem_reverse.1 hd)

/-- Decimals after seventeen others do not change the number of halves of a scaled point. -/
theorem halves_append (hds : ds.length = 17) (hes : ∀ d ∈ es, d < 10) :
    131072 * numeral (ds ++ es) / 10 ^ (ds ++ es).length = 131072 * numeral ds / 10 ^ ds.length := by
  -- halves of a scaled point are multiples of seventeen decimals, so none ends among the others
  have hpow : (10 : Nat) ^ 17 = 131072 * 5 ^ 17 := by norm_num
  have hpos : 0 < 10 ^ es.length := Nat.pow_pos (by decide)
  have hdrop : numeral (ds ++ es) / 10 ^ es.length = numeral ds := by
    rw [numeral_append, Nat.mul_comm, Nat.mul_add_div hpos, Nat.div_eq_of_lt (numeral_lt hes),
      Nat.add_zero]
  calc 131072 * numeral (ds ++ es) / 10 ^ (ds ++ es).length
      = 131072 * numeral (ds ++ es) / (131072 * (10 ^ es.length * 5 ^ 17)) := by
        rw [List.length_append, hds, Nat.pow_add, hpow, Nat.mul_assoc, Nat.mul_comm (5 ^ 17)]
    _ = numeral (ds ++ es) / 10 ^ es.length / 5 ^ 17 := by
        rw [Nat.mul_div_mul_left _ _ (by decide), Nat.div_div_eq_div_mul]
    _ = 131072 * numeral ds / 10 ^ ds.length := by
        rw [hdrop, hds, hpow, Nat.mul_div_mul_left _ _ (by decide)]

/-- The first seventeen decimals make the fraction. -/
theorem ofDecimalFraction_take (h : ∀ d ∈ ds, d < 10) :
    ofDecimalFraction (ds.take 17) = ofDecimalFraction ds := by
  by_cases hle : ds.length ≤ 17
  · rw [List.take_of_length_le hle]
  · have htake : (ds.take 17).length = 17 := by
      rw [List.length_take]
      omega
    have hdrop : ∀ d ∈ ds.drop 17, d < 10 := fun d hd => h d (List.mem_of_mem_drop hd)
    have hhalves := halves_append htake hdrop
    rw [List.take_append_drop] at hhalves
    unfold ofDecimalFraction
    rw [foldr_fraction, foldr_fraction, hhalves]

end Dimen

namespace Reader

variable {x : Expander} {s : Stream} {m₀ m m' m₁ : Machine} {t : Token} {ts : List Token}
  {next : Option Token} {d : Nat} {ds : List Nat} {rest : List Item}

/-! ### Reading decimals -/

/-- One round of reading decimals. -/
def decimalRound (s : Stream) (sofar : List Nat) : Run (List Nat ⊕ List Nat) := do
  match ← s with
  | none => return .inr sofar
  | some t =>
    match t.value with
    | .char .space _ => return .inr sofar
    | v =>
      match digit? .decimal v, v with
      | some d, .char .other _ =>
        return .inl (if sofar.length < fractionDigits then d :: sofar else sofar)
      | _, _ =>
        Run.pushBack t
        return .inr sofar

theorem decimals_eq (s : Stream) :
    decimals s = (do return .ofDecimalFraction (← Run.loop (decimalRound s) []).reverse) := rfl

/-- The decimals that are kept of those that were read, last first. -/
def kept (ds : List Nat) : List Nat := (ds.take fractionDigits).reverse

/-- A decimal is kept as long as there is room for it. -/
theorem kept_concat (ds : List Nat) (d : Nat) :
    kept (ds ++ [d]) = if (kept ds).length < fractionDigits then d :: kept ds else kept ds := by
  unfold kept
  rw [List.length_reverse, List.length_take]
  by_cases hlt : ds.length < fractionDigits
  · rw [if_pos (by omega), List.take_of_length_le (by simp; omega),
      List.take_of_length_le (Nat.le_of_lt hlt), List.reverse_concat]
  · rw [if_neg (by omega), List.take_append_of_le_length (Nat.le_of_not_lt hlt)]

/-- What is kept makes the fraction. -/
theorem ofDecimalFraction_kept (h : ∀ d ∈ ds, d < 10) :
    Dimen.ofDecimalFraction (kept ds).reverse = .ofDecimalFraction ds := by
  unfold kept
  rw [List.reverse_reverse]
  exact Dimen.ofDecimalFraction_take h

theorem decimalRound_digit (ht : t.value.IsDigit .decimal d) (sofar : List Nat)
    (h : s m = (.ok (some t), m')) :
    decimalRound s sofar m =
      (.ok (.inl (if sofar.length < fractionDigits then d :: sofar else sofar)), m') := by
  obtain ⟨⟨c, hv⟩, -⟩ := opens?_spec (opens?_of_isDigit ht)
  have hdigit := digit?_eq_some_iff.2 ht
  unfold decimalRound
  rw [Run.bind_of_ok h]
  rw [hv] at hdigit
  dsimp only
  rw [hv]
  dsimp only
  rw [hdigit]
  rfl

/-- Decimals end at the end of the input and at a token that is none, which is put back unless it is a
space. -/
theorem decimalRound_end (hends : ∀ t ∈ next, ∀ d, ¬ t.value.IsDigit .decimal d) (sofar : List Nat)
    (h : s m = (.ok next, m')) :
    decimalRound s sofar m = (.ok (.inr sofar), m'.returning next) := by
  unfold decimalRound
  rw [Run.bind_of_ok h]
  cases next with
  | none => rfl
  | some t =>
    have hdigit := digit?_eq_none_iff.2 (hends t rfl)
    obtain ⟨v, key⟩ := t
    cases v with
    | command ref => exact Run.bind_of_ok (Run.pushBack_eval _ m')
    | char category c =>
      cases category with
      | space => rfl
      | _ =>
        dsimp only at hdigit ⊢
        rw [hdigit]
        exact Run.bind_of_ok (Run.pushBack_eval _ m')

/-- All that a round can do. -/
theorem decimalRound_cases {sofar : List Nat} {r : List Nat ⊕ List Nat}
    (h : decimalRound s sofar m = (.ok r, m')) :
    (∃ next m₁, s m = (.ok next, m₁) ∧ (∀ t ∈ next, ∀ d, ¬ t.value.IsDigit .decimal d) ∧
      r = .inr sofar ∧ m' = m₁.returning next) ∨
    ∃ t d, s m = (.ok (some t), m') ∧ t.value.IsDigit .decimal d ∧
      r = .inl (if sofar.length < fractionDigits then d :: sofar else sofar) := by
  cases hs : s m with
  | mk result m₁ =>
    cases result with
    | error halt =>
      unfold decimalRound at h
      rw [Run.bind_of_error hs] at h
      cases h
    | ok next =>
      by_cases hends : ∀ t ∈ next, ∀ d, ¬ t.value.IsDigit .decimal d
      · rw [decimalRound_end hends sofar hs] at h
        cases h
        exact .inl ⟨next, m₁, rfl, hends, rfl, rfl⟩
      · push Not at hends
        obtain ⟨t, ht, d, hd⟩ := hends
        obtain rfl := Option.mem_def.1 ht
        rw [decimalRound_digit hd sofar hs] at h
        cases h
        exact .inr ⟨t, d, rfl, hd, rfl⟩

/-- Decimals are read on, however many there are. -/
theorem loop_over_decimals (hts : List.Forall₂ (fun t d => t.value.IsDigit .decimal d) ts ds)
    (before : List Nat) (h : s.Feeds ts m m') :
    Run.loop (decimalRound s) (kept before) m = Run.loop (decimalRound s) (kept (before ++ ds)) m' := by
  induction hts generalizing before m with
  | nil =>
    obtain rfl : m = m' := h
    rw [List.append_nil]
  | @cons t d ts ds ht hts ih =>
    obtain ⟨m₁, hd, hprogress, hrest⟩ := h
    have hround := decimalRound_digit ht (kept before) hd
    rw [← kept_concat] at hround
    rw [Run.loop_of_progress hround hprogress, ih _ hrest, List.append_assoc]
    rfl

/-- The stream gives the decimals, and then the end of the input or a token that is none. A space after
them is taken. -/
def GivesDecimals (s : Stream) (ds : List Nat) (m m' : Machine) : Prop :=
  ∃ ts next m₁ m₂, List.Forall₂ (fun t d => t.value.IsDigit .decimal d) ts ds ∧
    s.Supplies ts m m₁ ∧ s m₁ = (.ok next, m₂) ∧
    (∀ t ∈ next, ∀ d, ¬ t.value.IsDigit .decimal d) ∧ m' = m₂.returning next

theorem GivesDecimals.lt_ten (h : GivesDecimals s ds m m') : ∀ d ∈ ds, d < 10 := by
  obtain ⟨ts, _, _, _, hts, -⟩ := h
  exact lt_base_of_mem hts

/-- Decimals are read as what all of them stand for. -/
theorem decimals_of_feeds (hts : List.Forall₂ (fun t d => t.value.IsDigit .decimal d) ts ds)
    (h : s.Feeds ts m m₁) (hnext : s m₁ = (.ok next, m'))
    (hends : ∀ t ∈ next, ∀ d, ¬ t.value.IsDigit .decimal d) :
    decimals s m = (.ok (.ofDecimalFraction ds), m'.returning next) := by
  have hloop : Run.loop (decimalRound s) [] m = (.ok (kept ds), m'.returning next) :=
    (loop_over_decimals hts [] h).trans (Run.loop_of_answer (decimalRound_end hends _ hnext))
  rw [decimals_eq, Run.bind_of_ok hloop, ofDecimalFraction_kept (lt_base_of_mem hts)]
  rfl

/-- What has been read as decimals is all the decimals that the stream gives. -/
theorem givesDecimals_of_decimals {v : Dimen} (h : decimals s m = (.ok v, m')) :
    ∃ ds, GivesDecimals s ds m m' ∧ v = .ofDecimalFraction ds := by
  rw [decimals_eq] at h
  obtain ⟨sofar, m₁, hloop, hv⟩ := Run.exists_of_bind_eq_ok h
  cases hv
  have hall : ∃ ds, GivesDecimals s ds m m' ∧ sofar = kept ds := by
    -- so far some decimals have been given, and in hand are those of them that are kept
    refine Run.of_loop_eq_ok
      (fun sofar m₁ => ∃ ts ds, List.Forall₂ (fun t d => t.value.IsDigit .decimal d) ts ds ∧
        s.Supplies ts m m₁ ∧ sofar = kept ds)
      (fun sofar m' => ∃ ds, GivesDecimals s ds m m' ∧ sofar = kept ds) ?_ ⟨[], [], .nil, rfl, rfl⟩ hloop
    rintro _ r m₁ m₂ ⟨ts, ds, hts, hsupplies, rfl⟩ hround
    obtain ⟨next, m₃, hnext, hends, rfl, rfl⟩ | ⟨t, d, ht, hd, rfl⟩ := decimalRound_cases hround
    · exact ⟨ds, ⟨ts, next, m₁, m₃, hts, hsupplies, hnext, hends, rfl⟩, rfl⟩
    · exact ⟨ts ++ [t], ds ++ [d], List.rel_append hts (.cons hd .nil), hsupplies.concat ht,
        (kept_concat ds d).symm⟩
  obtain ⟨ds, hgives, rfl⟩ := hall
  exact ⟨ds, hgives, ofDecimalFraction_kept hgives.lt_ten⟩

/-- Where the digits of decimals come next, the stream gives them. -/
theorem feeds_decimals (h : m₀.Before (ts.map .ok ++ rest) m)
    (hts : List.Forall₂ (fun t d => t.value.IsDigit .decimal d) ts ds)
    (hends : m₀.Meets (fun v => ∀ d, ¬ v.IsDigit .decimal d) rest) :
    ∃ m₁ next m', (Stream.expanded x).Feeds ts m m₁ ∧ Stream.expanded x m₁ = (.ok next, m') ∧
      (∀ t ∈ next, ∀ d, ¬ t.value.IsDigit .decimal d) ∧
      m₀.Before (Stream.afterSpace rest) (m'.returning next) := by
  obtain ⟨m₁, hsupplies, h₁⟩ := h.supplies
  obtain ⟨next, m', hnext, hnone, h'⟩ := h₁.next (x := x) hends
  exact ⟨m₁, next, m', feeds_digits hts h.steady hsupplies, hnext, hnone, h'⟩

/-- Where the digits of decimals come next, they are read. -/
theorem decimals_of_digits (h : m₀.Before (ts.map .ok ++ rest) m)
    (hts : List.Forall₂ (fun t d => t.value.IsDigit .decimal d) ts ds)
    (hends : m₀.Meets (fun v => ∀ d, ¬ v.IsDigit .decimal d) rest) :
    ∃ m', decimals (Stream.expanded x) m = (.ok (.ofDecimalFraction ds), m') ∧
      m₀.Before (Stream.afterSpace rest) m' := by
  obtain ⟨m₁, next, m', hfeeds, hnext, hnone, h'⟩ := feeds_decimals (x := x) h hts hends
  exact ⟨_, decimals_of_feeds hts hfeeds hnext hnone, h'⟩

/-- **All decimals count.**

What is read as decimals is a part of a point that all the decimals stand for which the stream of the
interpreter gives, however many they are and whatever was expanded for them, although only some are kept;
and whenever it gives decimals, and then something else, they are read. The part is their exact value,
rounded down to halves of a scaled point and then to the nearest scaled point, upwards if there are two. -/
theorem decimals_exact (levels : Nat) (m m' : Machine) (hm : m.Ready levels) :
    (∀ v, decimals Stream.main m = (.ok v, m') ↔
      ∃ ds, GivesDecimals Stream.main ds m m' ∧ v = .ofDecimalFraction ds) ∧
    ∀ ds, (Dimen.ofDecimalFraction ds).scaled =
      ⌊((⌊2 ^ 17 * Dimen.exactFraction ds⌋ : ℚ) + 1) / 2⌋ := by
  refine ⟨fun v => ⟨givesDecimals_of_decimals, ?_⟩, Dimen.scaled_ofDecimalFraction⟩
  rintro ⟨ds, ⟨ts, next, m₁, m₂, hts, hsupplies, hnext, hends, rfl⟩, rfl⟩
  exact decimals_of_feeds hts (Stream.feeds_of_takes Run.takes_main hm hsupplies) hnext hends

/-- A third of a point, with more decimals than are kept. -/
theorem decimals_exact_third :
    let three : Token := .char .other '3' none
    let p : Token := .char .letter 'p' none
    let m := Machine.ready.push (List.replicate 20 three ++ [p])
    m.Ready 1000 ∧ ∃ m', decimals Stream.main m = (.ok ⟨21845⟩, m') ∧ m'.remaining = [.ok p] := by
  intro three p m
  have hthree : three.value.IsDigit .decimal 3 := ⟨by decide, .inl rfl⟩
  have hthrees (n : Nat) : List.Forall₂ (fun t d => t.value.IsDigit .decimal d)
      (List.replicate n three) (List.replicate n 3) := by
    induction n with
    | zero => exact .nil
    | succ n ih => exact .cons hthree ih
  have hready : m.Ready 1000 := ⟨Machine.accounted_ready _, by decide, by decide⟩
  have hbefore : Machine.ready.Before ((List.replicate 20 three).map .ok ++ [.ok p]) m := by
    have h := Machine.before_ready.push (List.replicate 20 three ++ [p])
    rw [List.map_append, List.append_nil] at h
    exact h
  have hends : Machine.ready.Meets (fun v => ∀ d, ¬ v.IsDigit .decimal d) [.ok p] :=
    ⟨Machine.leavesAlone_of_char rfl, digit?_eq_none_iff.1 rfl⟩
  obtain ⟨m₁, next, m₂, hfeeds, hnext, hnone, h⟩ := feeds_decimals (x := expand) hbefore (hthrees 20) hends
  obtain ⟨hread, -⟩ := decimals_exact 1000 m (m₂.returning next) hready
  exact ⟨hready, _, (hread _).2 ⟨_, ⟨_, next, m₁, m₂, hthrees 20, hfeeds.supplies, hnext, hnone, rfl⟩,
    rfl⟩, h.remaining⟩

end Reader

end Gullet
