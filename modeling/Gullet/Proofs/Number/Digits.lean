import Gullet.Proofs.Conditional.Tested
import Gullet.Proofs.Stream.Expanding
import Mathlib.Algebra.Ring.Parity
import Mathlib.Data.Nat.Digits.Defs
import Mathlib.Tactic.IntervalCases

/-!
# Signs and digits

A number is read sign by sign and digit by digit. Signs turn the sign of the number round. Digits, in
whatever radix, are added as long as the number stays a word; the first digit that makes it greater is
refused.
-/

namespace Gullet

/-! ### Digits -/

/-- The character of a digit, in upper case. -/
def Radix.digitChar (d : Nat) : Char := (Nat.digitChar d).toUpper

/-- The value is a digit of the radix: a character of category other or, after nine, a letter. -/
def TokenValue.IsDigit (r : Radix) (d : Nat) (v : TokenValue) : Prop :=
  d < r.base ∧
    (v = .char .other (Radix.digitChar d) ∨ 10 ≤ d ∧ v = .char .letter (Radix.digitChar d))

namespace Radix

variable {r : Radix}

/-- The number that digits stand for, the first of which counts most. -/
def numeral (r : Radix) (ds : List Nat) : Nat := Nat.ofDigits r.base ds.reverse

/-- The number that more digits make of what was read. -/
def extend (r : Radix) (n : Nat) (ds : List Nat) : Nat := ds.foldl (fun n d => n * r.base + d) n

theorem extend_append (n : Nat) (ds es : List Nat) :
    r.extend n (ds ++ es) = r.extend (r.extend n ds) es := List.foldl_append

theorem extend_zero (ds : List Nat) : r.extend 0 ds = r.numeral ds := by
  unfold extend numeral
  rw [Nat.ofDigits_eq_foldr, List.foldr_reverse]
  simp only [Nat.cast_id, Nat.mul_comm, Nat.add_comm]

theorem le_extend (n : Nat) (ds : List Nat) : n ≤ r.extend n ds := by
  have hbase : 1 ≤ r.base := by
    cases r <;> decide
  induction ds generalizing n with
  | nil => exact Nat.le_refl n
  | cons d ds ih =>
    calc n ≤ n * r.base := Nat.le_mul_of_pos_right n hbase
      _ ≤ n * r.base + d := Nat.le_add_right _ _
      _ ≤ r.extend (n * r.base + d) ds := ih _

end Radix

namespace Reader

variable {x : Expander} {s : Stream} {t : Token} {m m' m₁ : Machine} {b : Bindings} {r : Radix}
  {d n : Nat} {ts : List Token} {ds : List Nat}

theorem decimalDigit?_eq_some_iff {c : Char} :
    decimalDigit? c = some d ↔ d < 10 ∧ c = Radix.digitChar d := by
  constructor
  · intro h
    unfold decimalDigit? Char.isDigit at h
    split at h
    case isTrue hc =>
      rw [Bool.and_eq_true, decide_eq_true_iff, decide_eq_true_iff] at hc
      have hlow : 48 ≤ c.toNat := UInt32.le_iff_toNat_le.1 hc.1
      have hhigh : c.toNat ≤ 57 := UInt32.le_iff_toNat_le.1 hc.2
      obtain rfl : c.toNat - 48 = d := Option.some.inj h
      refine ⟨by omega, ?_⟩
      rw [← Char.ofNat_toNat c]
      generalize c.toNat = k at hlow hhigh
      interval_cases k <;> decide
    case isFalse => cases h
  · rintro ⟨hd, rfl⟩
    interval_cases d <;> decide

theorem hexLetter?_eq_some_iff {c : Char} :
    hexLetter? c = some d ↔ 10 ≤ d ∧ d < 16 ∧ c = Radix.digitChar d := by
  constructor
  · intro h
    unfold hexLetter? at h
    split at h
    case isTrue hc =>
      rw [Bool.and_eq_true, decide_eq_true_iff, decide_eq_true_iff] at hc
      have hlow : 65 ≤ c.toNat := UInt32.le_iff_toNat_le.1 hc.1
      have hhigh : c.toNat ≤ 70 := UInt32.le_iff_toNat_le.1 hc.2
      obtain rfl : c.toNat - 65 + 10 = d := Option.some.inj h
      refine ⟨by omega, by omega, ?_⟩
      rw [← Char.ofNat_toNat c]
      generalize c.toNat = k at hlow hhigh
      interval_cases k <;> decide
    case isFalse => cases h
  · rintro ⟨hlow, hhigh, rfl⟩
    interval_cases d <;> decide

/-- Digits are read as what they stand for, and nothing else is read as a digit. -/
theorem digit?_eq_some_iff {v : TokenValue} : digit? r v = some d ↔ v.IsDigit r d := by
  constructor
  · intro h
    unfold digit? at h
    split at h
    case h_1 c =>
      cases hc : decimalDigit? c with
      | some e =>
        rw [hc] at h
        dsimp only at h
        split at h
        case isTrue hlt =>
          obtain rfl := Option.some.inj h
          obtain ⟨-, rfl⟩ := decimalDigit?_eq_some_iff.1 hc
          exact ⟨hlt, .inl rfl⟩
        case isFalse => cases h
      | none =>
        rw [hc] at h
        dsimp only at h
        split at h
        case isTrue hr =>
          obtain ⟨-, hlt, rfl⟩ := hexLetter?_eq_some_iff.1 h
          subst hr
          exact ⟨hlt, .inl rfl⟩
        case isFalse => cases h
    case h_2 c =>
      split at h
      case isTrue hr =>
        obtain ⟨hlow, hlt, rfl⟩ := hexLetter?_eq_some_iff.1 h
        subst hr
        exact ⟨hlt, .inr ⟨hlow, rfl⟩⟩
      case isFalse => cases h
    case h_3 => cases h
  · rintro ⟨hlt, hv⟩
    by_cases hd : d < 10
    · obtain rfl : v = .char .other (Radix.digitChar d) := hv.resolve_right fun h => by omega
      unfold digit?
      dsimp only
      rw [decimalDigit?_eq_some_iff.2 ⟨hd, rfl⟩]
      exact if_pos hlt
    · -- only one radix has digits after nine
      obtain rfl : r = .hexadecimal := by
        cases r with
        | hexadecimal => rfl
        | octal => exact absurd (Nat.lt_trans hlt (by decide)) hd
        | decimal => exact absurd hlt hd
      have hlow : 10 ≤ d := Nat.le_of_not_lt hd
      have hhigh : d < 16 := hlt
      have hletter := hexLetter?_eq_some_iff.2 ⟨hlow, hhigh, rfl⟩
      have hnone : decimalDigit? (Radix.digitChar d) = none := by
        interval_cases d <;> decide
      rcases hv with rfl | ⟨-, rfl⟩
      · unfold digit?
        dsimp only
        rw [hnone]
        exact hletter
      · exact hletter

theorem digit?_eq_none_iff {v : TokenValue} : digit? r v = none ↔ ∀ d, ¬ v.IsDigit r d := by
  rw [Option.eq_none_iff_forall_ne_some]
  exact forall_congr' fun d => not_congr digit?_eq_some_iff

theorem lt_base_of_mem (hts : List.Forall₂ (fun t d => t.value.IsDigit r d) ts ds) :
    ∀ d ∈ ds, d < r.base := by
  induction hts with
  | nil => exact List.forall_mem_nil _
  | cons ht _ ih => exact List.forall_mem_cons.2 ⟨ht.1, ih⟩

/-- One round of reading digits. -/
def digitRound (s : Stream) (r : Radix) (b : Nat × Bool) : Run ((Nat × Bool) ⊕ (Nat × Bool)) := do
  match ← s with
  | none => return .inr b
  | some t =>
    match digit? r t.value with
    | none =>
      Run.pushBack t
      return .inr b
    | some d =>
      let n' := b.1 * r.base + d
      if Word.fits n' then return .inl (n', true)
      else Run.fail (.expected (.smallerNumber r b.1 d) (some t))

theorem digits_eq (s : Stream) (r : Radix) (soFar : Nat) (started : Bool) :
    digits s r soFar started = (do
      let (n, started) ← Run.loop (digitRound s r) (soFar, started)
      if started then return n
      else
        let got ← s.peek
        Run.fail (.expected (.digit r) got)) := rfl

theorem isCharacter_of_isDigit (h : t.value.IsDigit r d) : t.IsCharacter := by
  rcases h with ⟨-, hv | ⟨-, hv⟩⟩
  · exact ⟨_, _, hv⟩
  · exact ⟨_, _, hv⟩

theorem expanded_of_isCharacter (ht : t.IsCharacter) (h : Stream.raw m = (.ok (some t), m')) :
    Stream.expanded x m = (.ok (some t), m') := by
  obtain ⟨category, c, hv⟩ := ht
  exact Run.expanded_of_char h hv

/-- Characters are not expanded. -/
theorem feeds_characters (hts : ∀ t ∈ ts, t.IsCharacter) (hm : m.Steady b)
    (h : Stream.raw.Supplies ts m m') : (Stream.expanded x).Feeds ts m m' :=
  Stream.feeds_of_raw (fun t ht _ _ hraw => expanded_of_isCharacter (hts t ht) hraw) hm h

theorem feeds_digits (hts : List.Forall₂ (fun t d => t.value.IsDigit r d) ts ds) (hm : m.Steady b)
    (h : Stream.raw.Supplies ts m m') : (Stream.expanded x).Feeds ts m m' := by
  have hboth := hts.imp fun _ _ ht => And.intro (isCharacter_of_isDigit ht) ht
  exact feeds_characters ((List.forall₂_and_left ts ds).1 hboth).1 hm h

/-- A digit is read as long as the number stays a word. -/
theorem digitRound_digit (ht : t.value.IsDigit r d) (n : Nat) (started : Bool)
    (h : s m = (.ok (some t), m')) :
    digitRound s r (n, started) m =
      if n * r.base + d ≤ 2147483647 then (.ok (.inl (n * r.base + d, true)), m')
      else Run.fail (.expected (.smallerNumber r n d) (some t)) m' := by
  have hfits : Word.fits ((n * r.base + d : Nat) : Int) = true ↔ n * r.base + d ≤ 2147483647 := by
    rw [Word.fits_iff]
    omega
  unfold digitRound
  rw [Run.bind_of_ok h]
  dsimp only
  rw [digit?_eq_some_iff.2 ht]
  dsimp only
  by_cases hle : n * r.base + d ≤ 2147483647
  · rw [if_pos hle, if_pos (hfits.2 hle)]
    rfl
  · rw [if_neg hle, if_neg (mt hfits.1 hle)]

/-- Digits are read on as long as the number stays a word. -/
theorem loop_over_digits (hts : List.Forall₂ (fun t d => t.value.IsDigit r d) ts ds)
    (hfits : r.extend n ds ≤ 2147483647) (started : Bool) (h : s.Feeds ts m m') :
    Run.loop (digitRound s r) (n, started) m =
      Run.loop (digitRound s r) (r.extend n ds, started || !ts.isEmpty) m' := by
  induction hts generalizing n m started with
  | nil =>
    obtain rfl : m = m' := h
    simp [Radix.extend]
  | @cons t d ts ds ht hts ih =>
    obtain ⟨m₁, hd, hprogress, hrest⟩ := h
    have hle : n * r.base + d ≤ 2147483647 := Nat.le_trans (Radix.le_extend _ ds) hfits
    have hround := digitRound_digit ht n started hd
    rw [if_pos hle] at hround
    rw [Run.loop_of_progress hround hprogress, ih hfits true hrest]
    simp [Radix.extend]

/-- Where digits make more than a word, the one that does so is refused. -/
theorem loop_digits_error (hts : List.Forall₂ (fun t d => t.value.IsDigit r d) ts ds)
    (hn : n ≤ 2147483647) (hgreat : 2147483647 < r.extend n ds) (started : Bool)
    (h : s.Feeds ts m m') :
    ∃ before d t m₁, before ++ [d] <+: ds ∧ t ∈ ts ∧ t.value.IsDigit r d ∧
      r.extend n before ≤ 2147483647 ∧ 2147483647 < r.extend n (before ++ [d]) ∧
      Run.loop (digitRound s r) (n, started) m =
        Run.fail (.expected (.smallerNumber r (r.extend n before) d) (some t)) m₁ := by
  induction hts generalizing n m started with
  | nil => exact absurd hgreat (Nat.not_lt.2 hn)
  | @cons t d ts ds ht hts ih =>
    obtain ⟨m₁, hd, hprogress, hrest⟩ := h
    have hround := digitRound_digit ht n started hd
    by_cases hle : n * r.base + d ≤ 2147483647
    · rw [if_pos hle] at hround
      rw [Run.loop_of_progress hround hprogress]
      obtain ⟨before, d', t', m₂, hprefix, hmem, ht', hbefore, hgreat', hloop⟩ :=
        ih hle hgreat true hrest
      exact ⟨d :: before, d', t', m₂, List.cons_prefix_cons.2 ⟨rfl, hprefix⟩,
        List.mem_cons_of_mem _ hmem, ht', hbefore, hgreat', hloop⟩
    · -- the number only grows, so this is the first digit that is too much
      rw [if_neg hle] at hround
      refine ⟨[], d, t, m₁, List.cons_prefix_cons.2 ⟨rfl, List.nil_prefix⟩, List.mem_cons_self, ht,
        hn, Nat.lt_of_not_le hle, ?_⟩
      rw [Run.fail_eval] at hround ⊢
      exact Run.loop_of_error hround

/-- A token that is no digit ends the digits, and is put back. -/
theorem loop_digits_of_other {started : Bool} (hdigit : digit? r t.value = none)
    (h : Stream.expanded x m = (.ok (some t), m')) :
    Run.loop (digitRound (Stream.expanded x) r) (n, started) m = (.ok (n, started), m'.push [t]) := by
  refine Run.loop_of_answer ?_
  unfold digitRound
  rw [Run.bind_of_ok h]
  dsimp only
  rw [hdigit]
  exact Run.bind_of_ok (Run.pushBack_eval t m')

/-- The end of the input ends the digits. -/
theorem loop_digits_of_end {started : Bool} (h : Stream.raw m = (.ok none, m')) :
    Run.loop (digitRound (Stream.expanded x) r) (n, started) m = (.ok (n, started), m') := by
  refine Run.loop_of_answer ?_
  unfold digitRound
  exact Run.bind_of_ok (Run.expanded_of_none h)

/-! ### Signs -/

/-- Whether a token is a sign, and then whether it is a minus sign. Spaces count as signs. -/
def sign? : TokenValue → Option Bool
  | .char .other '+' | .char .space _ => some false
  | .char .other '-' => some true
  | _ => none

/-- One round of reading signs. -/
def signRound (s : Stream) (negative : Bool) : Run (Bool ⊕ Bool) := do
  match ← s.take? sign? with
  | none => return .inr negative
  | some minus => return .inl (negative != minus)

theorem signs_eq (s : Stream) : signs s = Run.loop (signRound s) false := rfl

theorem sign?_of_isSign (ht : t.IsSign) : sign? t.value = some t.isMinus := by
  unfold Token.isMinus
  rcases ht with hspace | hplus | hminus
  · obtain ⟨c, hv⟩ := TokenValue.eq_space hspace
    rw [hv]
    rfl
  · rw [hplus]
    rfl
  · rw [hminus]
    rfl

/-- Signs are read on, and turn the sign round. -/
theorem loop_over_signs {signs : List Token} (negative : Bool) (hsigns : ∀ t ∈ signs, t.IsSign)
    (h : s.Feeds signs m m') :
    Run.loop (signRound s) negative m = Run.loop (signRound s) (Token.turn negative signs) m' := by
  refine Run.loop_over _ (fun t ht negative m m' h => ?_) h negative
  unfold signRound
  rw [Run.bind_of_ok (Run.take?_of_some h (sign?_of_isSign (hsigns t ht)))]
  rfl

/-- A character that is no sign ends the signs, and is left. -/
theorem signs_before {signs : List Token} {first : Token} (hsigns : ∀ t ∈ signs, t.IsSign)
    (hfirst : first.IsCharacter) (hnone : sign? first.value = none) (hm : m.Steady b)
    (h : Stream.raw.Supplies (signs ++ first :: ts) m m') :
    ∃ m₁, Reader.signs (Stream.expanded x) m =
        (.ok (Token.turn false signs), m₁.push [first]) ∧
      Stream.raw (m₁.push [first]) = (.ok (some first), m₁) ∧ m₁.Steady b ∧
      Stream.raw.Supplies ts m₁ m' := by
  obtain ⟨m₀, hover, m₁, hraw, hrest⟩ := Stream.supplies_append.1 h
  have hround : signRound (Stream.expanded x) (Token.turn false signs) m₀ =
      (.ok (.inr (Token.turn false signs)), m₁.push [first]) := by
    unfold signRound
    rw [Run.bind_of_ok (Run.take?_of_none (expanded_of_isCharacter hfirst hraw) hnone)]
    rfl
  refine ⟨m₁, ?_, Run.raw_of_pushBack hraw, (hm.supplies hover).raw hraw, hrest⟩
  have hfeeds : (Stream.expanded x).Feeds signs m m₀ :=
    feeds_characters (fun t ht => (hsigns t ht).isCharacter) hm hover
  rw [signs_eq, loop_over_signs false hsigns hfeeds]
  exact Run.loop_of_answer hround

/-- An odd number of minus signs turns the sign round. -/
theorem turn_eq (negative : Bool) (signs : List Token) :
    Token.turn negative signs = (negative != decide (Odd (signs.countP Token.isMinus))) := by
  induction signs generalizing negative with
  | nil => simp [Token.turn]
  | cons t signs ih =>
    have hcons : Token.turn negative (t :: signs) = Token.turn (negative != t.isMinus) signs := rfl
    rw [hcons, ih]
    cases ht : t.isMinus with
    | false => rw [List.countP_cons_of_neg (by simp [ht]), Bool.bne_false]
    | true =>
      rw [List.countP_cons_of_pos ht, Bool.bne_true]
      simp only [Nat.odd_add_one, decide_not]
      cases negative <;> simp

/-! ### Numbers -/

/-- How a constant that starts with the value goes on: its radix, the number that has been read, and
whether that was a digit. -/
def opens? : TokenValue → Option (Radix × Nat × Bool)
  | .char .other c =>
    match decimalDigit? c with
    | some d => some (.decimal, d, true)
    | none =>
      if c = '\'' then some (.octal, 0, false)
      else if c = '"' then some (.hexadecimal, 0, false)
      else none
  | _ => none

theorem opens?_of_isDigit {v : TokenValue} (h : v.IsDigit .decimal d) :
    opens? v = some (.decimal, d, true) := by
  obtain ⟨hd, rfl | ⟨hten, -⟩⟩ := h
  · unfold opens?
    dsimp only
    rw [decimalDigit?_eq_some_iff.2 ⟨hd, rfl⟩]
  · exact absurd hd (Nat.not_lt.2 hten)

/-- A constant starts with a decimal digit or the mark of its radix. -/
theorem opens?_cases {v : TokenValue} {start : Radix × Nat × Bool} (h : opens? v = some start) :
    ∃ c, v = .char .other c ∧
      ((∃ d, decimalDigit? c = some d ∧ start = (.decimal, d, true)) ∨
        (c = '\'' ∧ start = (.octal, 0, false)) ∨ (c = '"' ∧ start = (.hexadecimal, 0, false))) := by
  unfold opens? at h
  split at h
  · next c =>
    refine ⟨c, rfl, ?_⟩
    split at h
    · next d hdigit =>
      cases h
      exact .inl ⟨d, hdigit, rfl⟩
    · split at h
      · next hoctal =>
        cases h
        exact .inr (.inl ⟨hoctal, rfl⟩)
      · split at h
        · next hhexadecimal =>
          cases h
          exact .inr (.inr ⟨hhexadecimal, rfl⟩)
        · cases h
  · cases h

/-- What starts a constant is a character, and no sign. -/
theorem opens?_spec {v : TokenValue} {start : Radix × Nat × Bool} (h : opens? v = some start) :
    (∃ c, v = .char .other c) ∧ sign? v = none := by
  obtain ⟨c, rfl, ⟨d, hc, -⟩ | ⟨rfl, -⟩ | ⟨rfl, -⟩⟩ := opens?_cases h
  · refine ⟨⟨c, rfl⟩, ?_⟩
    obtain ⟨hd, rfl⟩ := decimalDigit?_eq_some_iff.1 hc
    interval_cases d <;> rfl
  · exact ⟨⟨_, rfl⟩, rfl⟩
  · exact ⟨⟨_, rfl⟩, rfl⟩

/-- A number that starts with a constant is the constant, with the sign before it. -/
theorem numberAt_of_opens {first : Token} {negative started : Bool} {m₀ : Machine}
    (hopens : opens? first.value = some (r, n, started))
    (hsigns : signs (Stream.expanded x) m = (.ok negative, m₀))
    (hread : Stream.raw m₀ = (.ok (some first), m₁)) :
    numberAt x m = (do
      let k ← constant (Stream.expanded x) (Int.ofNat <$> digits (Stream.expanded x) r n started)
      return (first, if negative then Word.wrap (-k) else k)) m₁ := by
  obtain ⟨c, hv, hstart⟩ := opens?_cases hopens
  have hfirst := Run.nextOr_of_some (Run.expanded_of_char (x := x) hread hv) .number
  unfold numberAt
  rw [Run.fix_eq]
  unfold numberWith
  dsimp only
  rw [Run.bind_of_ok hsigns, Run.bind_of_ok hfirst, hv]
  obtain ⟨d, hc, hstart⟩ | ⟨rfl, hstart⟩ | ⟨rfl, hstart⟩ := hstart
  · cases hstart
    dsimp only
    rw [hc]
  · cases hstart
    rfl
  · cases hstart
    rfl

/-- A number is that of its digits, after which a space is taken if there is one. -/
theorem number_of_digits {first : Token} {negative started blank : Bool} {k : Nat}
    {m₀ m₂ m₃ : Machine} (hopens : opens? first.value = some (r, n, started))
    (hsigns : signs (Stream.expanded x) m = (.ok negative, m₀))
    (hread : Stream.raw m₀ = (.ok (some first), m₁))
    (hdigits : digits (Stream.expanded x) r n started m₁ = (.ok k, m₂))
    (hspace : (Stream.expanded x).takeSpace m₂ = (.ok blank, m₃)) (hfits : k ≤ 2147483647) :
    number x m = (.ok (if negative then -k else k), m₃) := by
  have hconstant : constant (Stream.expanded x)
      (Int.ofNat <$> digits (Stream.expanded x) r n started) m₁ = (.ok (k : Int), m₃) := by
    have hint : (Int.ofNat <$> digits (Stream.expanded x) r n started) m₁ = (.ok (k : Int), m₂) := by
      rw [map_eq_pure_bind, Run.bind_of_ok hdigits]
      rfl
    unfold constant
    rw [Run.bind_of_ok hint, Run.bind_of_ok hspace]
    rfl
  have hwrap : Word.wrap (-(k : Int)) = -(k : Int) :=
    Word.wrap_of_fits (Word.fits_iff.2 (by omega))
  unfold number
  rw [Run.bind_of_ok ((numberAt_of_opens hopens hsigns hread).trans (Run.bind_of_ok hconstant)), hwrap]
  rfl

/-- Digits that cannot be read stop the run. -/
theorem number_of_digits_error {first : Token} {negative started : Bool} {halt : Halt}
    {m₀ m₂ : Machine} (hopens : opens? first.value = some (r, n, started))
    (hsigns : signs (Stream.expanded x) m = (.ok negative, m₀))
    (hread : Stream.raw m₀ = (.ok (some first), m₁))
    (hdigits : digits (Stream.expanded x) r n started m₁ = (.error halt, m₂)) :
    number x m = (.error halt, m₂) := by
  have hconstant : constant (Stream.expanded x)
      (Int.ofNat <$> digits (Stream.expanded x) r n started) m₁ = (.error halt, m₂) := by
    unfold constant
    refine Run.bind_of_error ?_
    rw [map_eq_pure_bind, Run.bind_of_error hdigits]
  unfold number
  rw [Run.bind_of_error ((numberAt_of_opens hopens hsigns hread).trans (Run.bind_of_error hconstant))]

end Reader

end Gullet
