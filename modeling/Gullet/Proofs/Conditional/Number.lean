import Gullet.Proofs.Number.Digits
import Gullet.Proofs.Stream.Keyword

/-!
# Reading decimal numbers

A decimal number that is a word, and the space that ends it, are read as the number that its digits stand
for. Where no space ends it, the token after it is looked at. The digits of a greater number are refused.
-/

namespace Gullet

namespace Reader

variable {x : Expander} {t : Token} {m m' : Machine} {b : Bindings}

/-! ### Digits -/

theorem isDigit_digitToken (d : Fin 10 × SourceKey) :
    (Constant.digitToken d).value.IsDigit .decimal d.1 := by
  have hchar : ∀ d : Fin 10, Nat.digitChar d = Radix.digitChar d := by decide
  exact ⟨d.1.2, .inl (congrArg (TokenValue.char .other) (hchar d.1))⟩

theorem areDigits_digitTokens (ds : List (Fin 10 × SourceKey)) :
    List.Forall₂ (fun t d => t.value.IsDigit .decimal d) (ds.map Constant.digitToken)
      (ds.map (·.1.1)) := by
  induction ds with
  | nil => exact .nil
  | cons d ds ih => exact .cons (isDigit_digitToken d) ih

/-- The number that more digits make of what was read. -/
def decimal (n : Nat) (ds : List (Fin 10 × SourceKey)) : Nat := ds.foldl (fun n d => 10 * n + d.1) n

theorem decimal_eq_extend (n : Nat) (ds : List (Fin 10 × SourceKey)) :
    decimal n ds = Radix.decimal.extend n (ds.map (·.1.1)) := by
  unfold decimal Radix.extend
  rw [List.foldl_map]
  congr 1
  funext n d
  rw [Nat.mul_comm]
  rfl

/-- The digits of a word are read up to what ends them. -/
theorem digits_of_loop {d : Fin 10 × SourceKey} {ds : List (Fin 10 × SourceKey)} {m₁ m₂ : Machine}
    (hfits : decimal d.1 ds ≤ 2147483647) (hm : m.Steady b)
    (h : Stream.raw.Supplies (ds.map Constant.digitToken) m m₁)
    (hend : ∀ n started, Run.loop (digitRound (Stream.expanded x) .decimal) (n, started) m₁ =
      (.ok (n, started), m₂)) :
    digits (Stream.expanded x) .decimal d.1 true m = (.ok (decimal d.1 ds), m₂) := by
  rw [decimal_eq_extend] at hfits ⊢
  rw [digits_eq, Run.bind_of_ok ((loop_over_digits (areDigits_digitTokens ds) hfits true
    (feeds_digits (areDigits_digitTokens ds) hm h)).trans (hend _ _)), Bool.true_or]
  rfl

/-! ### Signs -/

theorem turn_minus {minus : Option Token} (hminus : ∀ t ∈ minus, t.value = .char .other '-') :
    Token.turn false minus.toList = minus.isSome := by
  cases minus with
  | none => rfl
  | some t => simp [Token.turn, Token.isMinus, hminus t rfl]

/-- The signs of a number are read, and the first digit is left. -/
theorem signs_before_digit {signs ts : List Token} {d : Fin 10 × SourceKey}
    (hsigns : ∀ t ∈ signs, t.IsSign) (hm : m.Steady b)
    (h : Stream.raw.Supplies (signs ++ Constant.digitToken d :: ts) m m') :
    ∃ m₁, Reader.signs (Stream.expanded x) m =
        (.ok (Token.turn false signs), m₁.push [Constant.digitToken d]) ∧
      Stream.raw (m₁.push [Constant.digitToken d]) = (.ok (some (Constant.digitToken d)), m₁) ∧
      m₁.Steady b ∧ Stream.raw.Supplies ts m₁ m' :=
  signs_before hsigns (isCharacter_of_isDigit (isDigit_digitToken d))
    (opens?_spec (opens?_of_isDigit (isDigit_digitToken d))).2 hm h

/-- The sign of a constant is read, and the first digit is left. -/
theorem signs_constant {minus : Option Token} {d : Fin 10 × SourceKey} {ts : List Token}
    (hminus : ∀ t ∈ minus, t.value = .char .other '-') (hm : m.Steady b)
    (h : Stream.raw.Supplies (minus.toList ++ Constant.digitToken d :: ts) m m') :
    ∃ m₁, signs (Stream.expanded x) m = (.ok minus.isSome, m₁.push [Constant.digitToken d]) ∧
      Stream.raw (m₁.push [Constant.digitToken d]) = (.ok (some (Constant.digitToken d)), m₁) ∧
      m₁.Steady b ∧ Stream.raw.Supplies ts m₁ m' := by
  rw [← turn_minus hminus]
  exact signs_before_digit (fun t ht => .inr (.inr (hminus t (Option.mem_toList.1 ht)))) hm h

/-! ### Numbers -/

theorem magnitude_numeral (signs : List Token) (d : Fin 10 × SourceKey)
    (ds : List (Fin 10 × SourceKey)) (blank : Option Token) :
    Numeral.magnitude ⟨signs, d :: ds, blank⟩ = decimal d.1 ds := by
  show decimal (10 * 0 + d.1) ds = decimal d.1 ds
  rw [Nat.mul_zero, Nat.zero_add]

/-- The digits of a number are read, and so is the space that ends it. Where none does, the next token
is looked at twice: to find the end of the digits, and to find a space. -/
theorem number_numeral {n : Numeral} {m'' : Machine} (hn : n.WellFormed)
    (hfits : n.magnitude ≤ 2147483647) (hm : m.Steady b) (h : Stream.raw.Supplies n.tokens m m')
    (hnext : n.isOpen = true → Stream.raw m' = (.ok (some t), m'') ∧ t.IsPlain) :
    number x m = (.ok n.value, m'.peeked n.isOpen t m'') := by
  obtain ⟨sgns, ds, blank⟩ := n
  obtain ⟨d, ds, rfl⟩ := List.exists_cons_of_ne_nil hn.digits
  obtain ⟨m₁, hsigns, hd, hm₁, hrest⟩ := signs_before_digit (x := x) hn.signs hm h
  have hopens := opens?_of_isDigit (isDigit_digitToken d)
  rw [magnitude_numeral] at hfits
  have hvalue : Numeral.value ⟨sgns, d :: ds, blank⟩ =
      if Token.turn false sgns then -(decimal d.1 ds : Int) else decimal d.1 ds := by
    unfold Numeral.value
    rw [magnitude_numeral]
    rfl
  rw [hvalue]
  obtain ⟨m₂, hds, hblank⟩ := Stream.supplies_append.1 hrest
  have hends {u : Token} {m₃ : Machine} (hu : Stream.raw m₂ = (.ok (some u), m₃))
      (hchar : u.IsCharacter) (hdigit : digit? .decimal u.value = none) :
      digits (Stream.expanded x) .decimal d.1 true m₁ = (.ok (decimal d.1 ds), m₃.push [u]) :=
    digits_of_loop hfits hm₁ hds fun _ _ =>
      loop_digits_of_other hdigit (expanded_of_isCharacter hchar hu)
  cases blank with
  | some blank =>
    have hspace := hn.blank blank rfl
    obtain ⟨c, hv⟩ := TokenValue.eq_space hspace
    have hraw := Stream.supplies_singleton.1 hblank
    exact number_of_digits hopens hsigns hd (hends hraw ⟨_, _, hv⟩ (by rw [hv]; rfl))
      (Stream.takeSpace_of_space hspace (Run.expanded_of_char (Run.raw_of_pushBack hraw) hv)) hfits
  | none =>
    obtain rfl : m₂ = m' := hblank
    obtain ⟨hraw, hplain⟩ := hnext rfl
    obtain ⟨category, c, hv, hspace, hdigit⟩ := hplain
    have hback := expanded_of_isCharacter (x := x) ⟨category, c, hv⟩ (Run.raw_of_pushBack hraw)
    exact number_of_digits hopens hsigns hd (hends hraw ⟨category, c, hv⟩ hdigit)
      (Stream.takeSpace_of_other hspace hback) hfits

/-- A number whose digits are no word is refused. -/
theorem number_numeral_error {n : Numeral} (hn : n.WellFormed) (hgreat : 2147483647 < n.magnitude)
    (hm : m.Steady b) (h : Stream.raw.Supplies n.tokens m m') :
    ∃ f m₁, number x m = (.error (.failed f), m₁) := by
  obtain ⟨sgns, ds, blank⟩ := n
  obtain ⟨d, ds, rfl⟩ := List.exists_cons_of_ne_nil hn.digits
  obtain ⟨m₁, hsigns, hd, hm₁, hrest⟩ := signs_before_digit (x := x) hn.signs hm h
  rw [magnitude_numeral, decimal_eq_extend] at hgreat
  obtain ⟨m₂, hds, -⟩ := Stream.supplies_append.1 hrest
  have hfirst : d.1.1 ≤ 2147483647 := by omega
  obtain ⟨before, k, u, m₃, -, -, -, -, -, hloop⟩ :=
    loop_digits_error (areDigits_digitTokens ds) hfirst hgreat true
      (feeds_digits (x := x) (areDigits_digitTokens ds) hm₁ hds)
  rw [Run.fail_eval] at hloop
  exact ⟨_, m₃, number_of_digits_error (opens?_of_isDigit (isDigit_digitToken d)) hsigns hd
    (Run.bind_of_error hloop)⟩

/-- A number that no space ends is not read where the token after it cannot be. -/
theorem number_open_error {n : Numeral} {halt : Halt} {m'' : Machine} (hn : n.WellFormed)
    (hopen : n.isOpen = true) (hfits : n.magnitude ≤ 2147483647) (hm : m.Steady b)
    (h : Stream.raw.Supplies n.tokens m m')
    (hnext : Stream.expanded x m' = (.error halt, m'')) : number x m = (.error halt, m'') := by
  obtain ⟨sgns, ds, blank⟩ := n
  obtain ⟨d, ds, rfl⟩ := List.exists_cons_of_ne_nil hn.digits
  obtain ⟨m₁, hsigns, hd, hm₁, hrest⟩ := signs_before_digit (x := x) hn.signs hm h
  rw [magnitude_numeral, decimal_eq_extend] at hfits
  obtain rfl : blank = none := Option.isNone_iff_eq_none.1 hopen
  obtain ⟨m₂, hds, rfl⟩ := Stream.supplies_append.1 hrest
  refine number_of_digits_error (opens?_of_isDigit (isDigit_digitToken d)) hsigns hd ?_
  rw [digits_eq, Run.bind_of_error ((loop_over_digits (areDigits_digitTokens ds) hfits true
    (feeds_digits (areDigits_digitTokens ds) hm₁ hds)).trans
      (Run.loop_of_error (Run.bind_of_error hnext)))]

end Reader

end Gullet
