import Gullet.Proofs.Conditional.Number
import Gullet.Proofs.Dimen.Fractions
import Gullet.Proofs.Dimen.Range
import Gullet.Proofs.Dimen.Units
import Gullet.Proofs.Number.Constants

/-!
# Reading back what was written

The characters that a dimension or a number is written with are read back as that dimension or number,
to the last one. On the way tokens are read and put back several times: the first digit after the signs,
the point after the whole points, and the unit, in front of which a variable, spaces and a keyword are
looked for.
-/

namespace Gullet

/-! ### The tokens of a text -/

namespace Token

theorem ofText_append (s s' : String) (key : SourceKey) :
    ofText (s ++ s') key = ofText s key ++ ofText s' key := by
  unfold ofText
  rw [String.toList_append, List.map_append]

theorem ofTextChar_digitChar (key : SourceKey) (d : Fin 10) :
    ofTextChar key (Nat.digitChar d) = Constant.digitToken (d, key) := by
  have hspace : ∀ d : Fin 10, Nat.digitChar d ≠ ' ' := by decide
  exact if_neg (hspace d)

theorem ofText_digits {ds : List Nat} (key : SourceKey) (h : ∀ d ∈ ds, d < 10) :
    ∃ fs : List (Fin 10 × SourceKey), fs.map (fun d => d.1.1) = ds ∧
      ofText (String.ofList (ds.map Nat.digitChar)) key = fs.map Constant.digitToken := by
  unfold ofText
  rw [String.toList_ofList]
  induction ds with
  | nil => exact ⟨[], rfl, rfl⟩
  | cons d ds ih =>
    obtain ⟨hd, hds⟩ := List.forall_mem_cons.1 h
    obtain ⟨fs, hvalues, htokens⟩ := ih hds
    refine ⟨(⟨d, hd⟩, key) :: fs, congrArg (d :: ·) hvalues, ?_⟩
    rw [List.map_cons, List.map_cons, htokens, List.map_cons, ← ofTextChar_digitChar]

/-- A natural number is written with its digits. -/
theorem ofText_toString (n : Nat) (key : SourceKey) :
    ∃ d ds, ofText (toString n) key = (d :: ds).map Constant.digitToken ∧
      Reader.decimal d.1 ds = n := by
  unfold ofText
  rw [Nat.toString_eq_ofList_toDigits, String.toList_ofList]
  induction n using Nat.strongRecOn with
  | ind n ih =>
    by_cases hn : n < 10
    · refine ⟨(⟨n, hn⟩, key), [], ?_, rfl⟩
      rw [Nat.toDigits_of_lt_base hn]
      exact congrArg (· :: []) (ofTextChar_digitChar key ⟨n, hn⟩)
    · obtain ⟨d, ds, htokens, hvalue⟩ := ih (n / 10) (by omega)
      refine ⟨d, ds ++ [(⟨n % 10, Nat.mod_lt _ (by decide)⟩, key)], ?_, ?_⟩
      · rw [Nat.toDigits_of_base_le (by decide) (Nat.le_of_not_lt hn), List.map_append, htokens,
          ← List.cons_append, List.map_append]
        exact congrArg (_ ++ [·]) (ofTextChar_digitChar key ⟨n % 10, _⟩)
      · have happend : Reader.decimal d.1 (ds ++ [(⟨n % 10, Nat.mod_lt _ (by decide)⟩, key)]) =
            10 * Reader.decimal d.1 ds + n % 10 := by
          unfold Reader.decimal
          rw [List.foldl_append]
          rfl
        rw [happend, hvalue]
        omega

/-- The sign that a number is written with. -/
def minusSign (negative : Bool) (key : SourceKey) : Option Token :=
  if negative then some (.char .other '-' key) else none

theorem value_of_mem_minusSign {negative : Bool} {key : SourceKey} :
    ∀ t ∈ minusSign negative key, t.value = .char .other '-' := by
  unfold minusSign
  cases negative with
  | false => exact nofun
  | true =>
    rintro t ⟨⟩
    rfl

theorem isSome_minusSign (negative : Bool) (key : SourceKey) :
    (minusSign negative key).isSome = negative := by
  cases negative <;> rfl

theorem ofText_sign (negative : Bool) (key : SourceKey) :
    ofText (if negative then "-" else "") key = (minusSign negative key).toList := by
  cases negative <;> rfl

/-- An integer is written with its sign in front of its digits. -/
theorem ofText_toString_int (n : Int) (key : SourceKey) :
    ofText (toString n) key =
      (minusSign (decide (n < 0)) key).toList ++ ofText (toString n.natAbs) key := by
  have htext : toString n = (if decide (n < 0) then "-" else "") ++ toString n.natAbs := by
    rw [Int.toString_eq_repr, Int.repr_eq_if]
    by_cases hn : 0 ≤ n
    · have hneg : decide (n < 0) = false := decide_eq_false (by omega)
      have habs : n.toNat = n.natAbs := by omega
      rw [if_pos hn, hneg, habs]
      exact String.empty_append.symm
    · have hneg : decide (n < 0) = true := decide_eq_true (by omega)
      have habs : (-n).toNat = n.natAbs := by omega
      rw [if_neg hn, hneg, habs]
      rfl
  rw [htext, ofText_append, ofText_sign]

end Token

namespace Reader

variable {x : Expander} {m₀ m m' m₁ : Machine} {t : Token} {key : SourceKey} {b : Bindings}

/-! ### Numbers -/

theorem decimal_eq_numeral (d : Fin 10 × SourceKey) (ds : List (Fin 10 × SourceKey)) :
    decimal d.1 ds = Radix.decimal.numeral ([d.1.1] ++ ds.map (·.1.1)) := by
  rw [← extend_numeral, numeral_singleton, decimal_eq_extend]

/-- **The digits of a number are read back as the number**, to the last one. -/
theorem number_toString {n : Int} (hm : m.cancellation.raised = false)
    (ha : Input.Accounted m.input.sources) (hn : n.natAbs ≤ 2147483647)
    (h : m.remaining = (Token.ofText (toString n) key).map .ok) :
    ∃ m', number x m = (.ok n, m') ∧ m'.remaining = [] ∧ m.SameButInput m' := by
  obtain ⟨d, ds, htokens, hvalue⟩ := Token.ofText_toString n.natAbs key
  rw [Token.ofText_toString_int, htokens, ← List.append_nil (List.map Except.ok _)] at h
  rw [decimal_eq_numeral] at hvalue
  have hsigns : ∀ t ∈ (Token.minusSign (decide (n < 0)) key).toList, t.IsSign :=
    fun t ht => .inr (.inr (Token.value_of_mem_minusSign t (Option.mem_toList.1 ht)))
  have hend : m.Meets (fun v => ∀ d, ¬ v.IsDigit .decimal d) [] := trivial
  have hbefore : m.Before _ m := ⟨rfl, h, ha, hm⟩
  obtain ⟨m', hnumber, h'⟩ := number_of_opening (x := x) hbefore hsigns
    (opens?_of_digit (isDigit_digitToken d)) (areDigits_digitTokens ds) (List.cons_ne_nil _ _) hend
    (hvalue ▸ hn)
  have hodd : Odd ((Token.minusSign (decide (n < 0)) key).toList.countP Token.isMinus) ↔ n < 0 := by
    by_cases hneg : n < 0
    · simp [hneg, Token.minusSign, Token.isMinus, Token.char]
    · simp [hneg, Token.minusSign]
  have hsign : (if n < 0 then -(n.natAbs : Int) else n.natAbs) = n := by
    split <;> omega
  rw [hvalue] at hnumber
  simp only [hodd, hsign] at hnumber
  exact ⟨m', hnumber, h'.remaining, h'.same⟩

/-! ### Dimensions -/

/-- A length in points is read to the end of the input. -/
theorem scaled_points (whole : Int) (part : Dimen)
    (h : m₀.Before ((['p', 't'].map (Token.char .other · key)).map .ok) m) :
    ∃ m', scaled x whole part m = (.ok (LengthUnit.point.times? whole part), m') ∧ m₀.Before [] m' := by
  have hentry : ("pt", LengthUnit.point) ∈ LengthUnit.all := by decide
  have hspells : Stream.Spells "pt".toList (['p', 't'].map (Token.char .other · key)) :=
    .cons rfl (.cons rfl .nil)
  have hend : m₀.Meets (fun _ => True) [] := trivial
  obtain ⟨m', hfactor, h'⟩ :=
    factor_spelled (x := x) [] h (List.forall_mem_nil _) hentry hspells hend
  refine ⟨m', ?_, h'⟩
  rw [scaled_eq, Run.bind_of_ok hfactor]
  rfl

/-- A dimension starts with the first digit of its whole points. -/
theorem dimen_of_digits {d : Fin 10 × SourceKey} {negative : Bool} {whole : Nat}
    {m₁ m₂ m₃ : Machine}
    (hsigns : signs (Stream.expanded x) m = (.ok negative, m₁.push [Constant.digitToken d]))
    (hd : Stream.raw (m₁.push [Constant.digitToken d]) = (.ok (some (Constant.digitToken d)), m₁))
    (hdigits : digits (Stream.expanded x) .decimal d.1 true m₁ = (.ok whole, m₂))
    (hpoint : (Stream.expanded x).take? point? m₂ = (.ok (some ()), m₃)) :
    dimen x m = (do
      finishDimen x negative (Constant.digitToken d) whole (← decimals (Stream.expanded x))) m₃ := by
  have hnone : ∀ d : Fin 10, point? (.char .other (Nat.digitChar d)) = none := by decide
  have hdigit : digit? .decimal (.char .other (Nat.digitChar d.1)) = some d.1.1 :=
    digit?_eq_some_iff.2 (isDigit_digitToken d)
  unfold dimen
  dsimp only
  rw [Run.bind_of_ok hsigns, Run.bind_of_ok (Run.nextOr_of_some (Run.expanded_of_char hd rfl) _)]
  unfold Constant.digitToken Token.char
  dsimp only
  rw [hnone d.1, hdigit]
  dsimp only [Option.isSome_none]
  rw [if_neg Bool.false_ne_true, Run.bind_of_ok hdigits, Run.bind_of_ok hpoint]

/-- A dimension is read from its whole points, its fraction and its sign. -/
theorem finishDimen_points {d : Dimen} (hd : d.isLegal = true) (first : Token)
    (h : m₀.Before ((['p', 't'].map (Token.char .other · key)).map .ok) m) :
    ∃ m', finishDimen x (decide (d.scaled < 0)) first (d.scaled.natAbs / 65536 : Nat) d.abs.fraction m =
      (.ok d, m') ∧ m₀.Before [] m' := by
  obtain ⟨n⟩ := d
  have hlegal := Dimen.isLegal_iff.1 hd
  dsimp only at hlegal
  have hpoints : LengthUnit.point.times? (n.natAbs / 65536 : Nat) (Dimen.abs ⟨n⟩).fraction =
      some ⟨n.natAbs⟩ := by
    have hrange : (decide (-16384 < ((n.natAbs / 65536 : Nat) : Int)) &&
        decide (((n.natAbs / 65536 : Nat) : Int) < 16384)) = true := by
      rw [Bool.and_eq_true, decide_eq_true_iff, decide_eq_true_iff]
      omega
    unfold LengthUnit.times? Dimen.ofPoints? Dimen.unity
    dsimp only
    rw [if_pos hrange, Dimen.fraction_abs, Option.map_some]
    refine congrArg some (congrArg Dimen.mk ?_)
    show 65536 * ((n.natAbs / 65536 : Nat) : Int) + ((n.natAbs % 65536 : Nat) : Int) = n.natAbs
    omega
  obtain ⟨m', hscaled, h'⟩ :=
    scaled_points (x := x) (n.natAbs / 65536 : Nat) (Dimen.abs ⟨n⟩).fraction h
  refine ⟨m', ?_, h'⟩
  unfold finishDimen
  dsimp only
  rw [if_neg (by omega)]
  dsimp only
  rw [Run.bind_of_ok hscaled, hpoints]
  dsimp only
  by_cases hneg : n < 0
  · rw [decide_eq_true hneg, if_pos rfl]
    unfold negate Word.least
    rw [if_neg (by simp only; omega)]
    refine congrArg (fun d => (Except.ok d, m')) (congrArg Dimen.mk ?_)
    show -(n.natAbs : Int) = n
    omega
  · rw [decide_eq_false hneg, if_neg Bool.false_ne_true]
    refine congrArg (fun d => (Except.ok d, m')) (congrArg Dimen.mk ?_)
    omega

/-- The text of a dimension as tokens. -/
theorem ofText_text (d : Dimen) (key : SourceKey) :
    Token.ofText d.text key =
      (Token.minusSign (decide (d.scaled < 0)) key).toList ++
        (Token.ofText (toString (d.scaled.natAbs / 65536)) key ++
          (Token.char .other '.' key ::
            (Token.ofText (String.ofList (d.decimals.map Nat.digitChar)) key ++
              ['p', 't'].map (Token.char .other · key)))) := by
  have hsign : (if d.scaled < 0 then "-" else "") =
      if decide (d.scaled < 0) then "-" else "" := by
    by_cases hneg : d.scaled < 0 <;> simp [hneg]
  have hpoint : Token.ofText "." key = [.char .other '.' key] := rfl
  have hunit : Token.ofText "pt" key = ['p', 't'].map (Token.char .other · key) := rfl
  unfold Dimen.text
  rw [Token.ofText_append, Token.ofText_append, Token.ofText_append, Token.ofText_append, hsign,
    Token.ofText_sign, hpoint, hunit]
  simp only [List.append_assoc, List.cons_append, List.nil_append]

/-- A number of points that is written with decimals is read up to its unit, which is left. -/
theorem dimen_of_points {negative : Bool} {f : Fin 10 × SourceKey} {fs ds : List (Fin 10 × SourceKey)}
    (hfits : decimal f.1 fs ≤ 2147483647)
    (h : m₀.Before (((Token.minusSign negative key).toList ++ Constant.digitToken f ::
      (fs.map Constant.digitToken ++ [.char .other '.' key])).map .ok ++
        ((ds.map Constant.digitToken).map .ok ++
          (['p', 't'].map (Token.char .other · key)).map .ok)) m) :
    ∃ m', dimen x m = finishDimen x negative (Constant.digitToken f) (decimal f.1 fs)
        (.ofDecimalFraction (ds.map (·.1.1))) m' ∧
      m₀.Before ((['p', 't'].map (Token.char .other · key)).map .ok) m' := by
  obtain ⟨m₁, hsupplies, h₁⟩ := h.supplies
  -- the sign and the whole points
  obtain ⟨m₂, hsigns, hfirst, hm₂, hrest⟩ :=
    signs_constant (x := x) Token.value_of_mem_minusSign h.steady hsupplies
  obtain ⟨m₃, hfs, hpoint⟩ := Stream.supplies_append.1 hrest
  have hpoint := Stream.supplies_singleton.1 hpoint
  have hdigits := digits_of_loop (x := x) hfits hm₂ hfs fun _ _ =>
    loop_digits_of_other rfl (Run.expanded_of_char hpoint rfl)
  have htake : (Stream.expanded x).take? point? (m₁.push [.char .other '.' key]) =
      (.ok (some ()), m₁) :=
    Run.take?_of_some (Run.expanded_of_char (Run.raw_of_pushBack hpoint) rfl) rfl
  rw [Token.isSome_minusSign] at hsigns
  -- the decimals
  have hends : m₀.Meets (fun v => ∀ d, ¬ v.IsDigit .decimal d)
      ((['p', 't'].map (Token.char .other · key)).map .ok) := ⟨nofun, digit?_eq_none_iff.1 rfl⟩
  obtain ⟨m', hdecimals, h'⟩ := decimals_of_digits (x := x) h₁ (areDigits_digitTokens ds) hends
  refine ⟨m', ?_, h'⟩
  rw [dimen_of_digits hsigns hfirst hdigits htake, Run.bind_of_ok hdecimals]

/-- **The text of a dimension is read back as the dimension**, to its last character. -/
theorem dimen_text {d : Dimen} (hd : d.isLegal = true) (hm : m.cancellation.raised = false)
    (ha : Input.Accounted m.input.sources)
    (h : m.remaining = (Token.ofText d.text key).map .ok) :
    ∃ m', dimen x m = (.ok d, m') ∧ m'.remaining = [] ∧ m.SameButInput m' := by
  obtain ⟨f, fs, hwhole, hvalue⟩ := Token.ofText_toString (d.scaled.natAbs / 65536) key
  obtain ⟨ds, hdecimals, hpart⟩ := Token.ofText_digits key fun _ => d.lt_of_mem_decimals
  have hlegal := Dimen.isLegal_iff.1 hd
  have hfits : decimal f.1 fs ≤ 2147483647 := by omega
  have hbefore : m.Before (((Token.minusSign (decide (d.scaled < 0)) key).toList ++
      Constant.digitToken f :: (fs.map Constant.digitToken ++ [.char .other '.' key])).map .ok ++
        ((ds.map Constant.digitToken).map .ok ++
          (['p', 't'].map (Token.char .other · key)).map .ok)) m := by
    refine ⟨rfl, ?_, ha, hm⟩
    rw [h, ofText_text, hwhole, hpart]
    simp
  obtain ⟨m₁, hdimen, h₁⟩ := dimen_of_points (x := x) hfits hbefore
  rw [hvalue, hdecimals, Dimen.ofDecimalFraction_decimals] at hdimen
  obtain ⟨m', hfinish, h'⟩ := finishDimen_points (x := x) hd (Constant.digitToken f) h₁
  exact ⟨m', hdimen.trans hfinish, h'.remaining, h'.same⟩

/-- **What was written is read back.**

If the remaining stream consists of the characters that a legal dimension is written with, reading a
dimension gives that dimension and leaves nothing; the decimals that are written are read as the fraction
of the dimension, and no fewer decimals are. If it consists of the characters of a word other than the
least one, reading a number gives that word and leaves nothing. -/
theorem reads_back_text (x : Expander) (key : SourceKey) (m : Machine)
    (hm : m.cancellation.raised = false) (ha : Input.Accounted m.input.sources) :
    (∀ d : Dimen, d.isLegal = true →
      (m.remaining = (Token.ofText d.text key).map .ok →
        ∃ m', dimen x m = (.ok d, m') ∧ m'.remaining = [] ∧ m.SameButInput m') ∧
      Dimen.ofDecimalFraction d.decimals = d.abs.fraction ∧
      ∀ ds : List Nat, ds ≠ [] → ds.length < d.decimals.length →
        Dimen.ofDecimalFraction ds ≠ d.abs.fraction) ∧
    ∀ n : Int, Word.fits n = true → n ≠ Word.least →
      m.remaining = (Token.ofText (toString n) key).map .ok →
        ∃ m', number x m = (.ok n, m') ∧ m'.remaining = [] ∧ m.SameButInput m' := by
  refine ⟨fun d hd => ⟨dimen_text hd hm ha, d.ofDecimalFraction_decimals,
    fun ds => d.ofDecimalFraction_ne⟩, fun n hfits hne h => ?_⟩
  have hrange := Word.fits_iff.1 hfits
  unfold Word.least at hne
  exact number_toString hm ha (by omega) h

/-- One and a half points below zero, as they are written. -/
theorem reads_back_half :
    let half : Dimen := ⟨-98304⟩
    half.isLegal = true ∧ half.text = "-1.5pt" ∧
      ∃ m', dimen expand (Machine.ready.push (Token.ofText half.text none)) = (.ok half, m') ∧
        m'.remaining = [] := by
  intro half
  have hremaining : (Machine.ready.push (Token.ofText half.text none)).remaining =
      (Token.ofText half.text none).map .ok := by
    rw [Machine.remaining_push]
    exact List.append_nil _
  obtain ⟨m', hread, hleft, -⟩ := ((reads_back_text expand none
    (Machine.ready.push (Token.ofText half.text none)) rfl (Machine.accounted_ready _)).1
      half rfl).1 hremaining
  exact ⟨rfl, by decide +kernel, m', hread, hleft⟩

end Reader

end Gullet
