import Gullet.Proofs.Dimen.Rereading
import Gullet.Proofs.Registers.Words
import Gullet.Proofs.Run.Looping
import Gullet.Proofs.Run.Rereading
import Gullet.Proofs.Unfolding.Keeping

/-!
# The numbers and dimensions that are read

What is expanded while a number is read writes no register. So a number that is read is a constant or
comes from a register as it was before, and it is a word if the registers hold words. A dimension is put
together by operations that refuse to leave the legal range, with few exceptions.
-/

namespace Gullet

namespace Machine

/-- Both machines have the same values in their registers. -/
def SameStore (m m' : Machine) : Prop := m'.scopes.store = m.scopes.store

instance : Unfolding SameStore where
  refl _ := rfl
  trans _ _ _ h h' := h'.trans h
  read _ := rfl
  skip _ _ := rfl
  push _ _ := rfl
  announce _ _ := rfl
  put _ _ _ := rfl
  name _ _ _ := rfl
  openBranch _ _ := rfl
  closeBranch _ := rfl
  count _ := rfl
  openSource _ _ _ := rfl
  endInput _ := rfl
  region _ h := h
  deeper h := h
  shielding h := h

end Machine

namespace Run

variable {α : Type} {a : Run α} {m m' : Machine} {x : α}

theorem Keeps.store_eq (ha : a.Keeps Machine.SameStore) {r : Except Halt α} (h : a m = (r, m')) :
    m'.scopes.store = m.scopes.store := by
  have hm := ha m
  rw [h] at hm
  exact hm

end Run

/-- The number comes from a register, or is a constant that is a word. -/
def InternalNumber.ComesFrom (s : Store) : InternalNumber → Prop
  | .integer n => s.Yields n
  | .dimen d => ∃ index, d = s.dimen index

theorem CatCode.yields_number {s : Store} (c : CatCode) : s.Yields c.number := by
  have hc : c.number ≤ 15 := by
    cases c <;> decide
  exact Store.yields_of_nonneg (by omega) (by omega)

namespace Reader

open Machine (SameStore)

variable {s : Stream} {x : Expander} {m m' : Machine} {t : Token}

/-! ### Constants -/

theorem decimalDigit?_lt {c : Char} {d : Nat} (h : decimalDigit? c = some d) : d < 10 := by
  unfold decimalDigit? Char.isDigit at h
  split at h
  · rename_i hc
    rw [Bool.and_eq_true, decide_eq_true_iff, decide_eq_true_iff] at hc
    have hhigh : c.val.toNat ≤ 57 := UInt32.le_iff_toNat_le.1 hc.2
    cases h
    show c.val.toNat - 48 < 10
    omega
  · cases h

/-- A digit is only added if a word comes out. -/
theorem of_digitRound {r : Radix} {b : Nat × Bool} {next : (Nat × Bool) ⊕ (Nat × Bool)}
    (hb : b.1 ≤ 2147483647) (h : digitRound s r b m = (.ok next, m')) :
    Sum.elim (fun b _ => b.1 ≤ 2147483647) (fun b _ => b.1 ≤ 2147483647) next m' := by
  unfold digitRound at h
  obtain ⟨t?, m₁, -, h⟩ := Run.exists_of_bind_eq_ok h
  cases t? with
  | none =>
    cases h
    exact hb
  | some t =>
    dsimp only at h
    cases hd : digit? r t.value with
    | none =>
      rw [hd] at h
      cases h
      exact hb
    | some d =>
      rw [hd] at h
      dsimp only at h
      split at h
      · rename_i hfits
        cases h
        rw [Word.fits_iff] at hfits
        exact Int.ofNat_le.1 hfits.2
      · cases h

/-- A constant is a word. -/
theorem digits_le {r : Radix} {soFar n : Nat} {started : Bool} (hsoFar : soFar ≤ 2147483647)
    (h : digits s r soFar started m = (.ok n, m')) : n ≤ 2147483647 := by
  rw [digits_eq] at h
  obtain ⟨⟨k, begun⟩, m₁, hloop, h⟩ := Run.exists_of_bind_eq_ok h
  have hk : k ≤ 2147483647 :=
    Run.of_loop_eq_ok (fun b _ => b.1 ≤ 2147483647) (fun b _ => b.1 ≤ 2147483647) of_digitRound
      hsoFar hloop
  cases begun with
  | true =>
    cases h
    exact hk
  | false =>
    obtain ⟨got, m₂, -, h⟩ := Run.exists_of_bind_eq_ok h
    cases h

theorem character_le {n : Int} (h : character m = (.ok n, m')) : 0 ≤ n ∧ n ≤ 2147483647 := by
  have hchar (c : Char) : 0 ≤ (c.toNat : Int) ∧ (c.toNat : Int) ≤ 2147483647 := by
    have hc : c.toNat.isValidChar := c.valid
    unfold Nat.isValidChar at hc
    omega
  unfold character at h
  obtain ⟨t, m₁, -, h⟩ := Run.exists_of_bind_eq_ok h
  cases hv : t.value with
  | char category c =>
    rw [hv] at h
    cases h
    exact hchar c
  | command ref =>
    rw [hv] at h
    cases ref with
    | active c =>
      cases h
      exact hchar c
    | controlSequence name =>
      dsimp only at h
      cases hname : name.toList with
      | nil =>
        rw [hname] at h
        cases h
      | cons c rest =>
        rw [hname] at h
        cases rest with
        | nil =>
          cases h
          exact hchar c
        | cons c' rest => cases h

/-! ### Numbers -/

section

variable {number : Run (Token × Int)}

theorem keeps_resolve {R : Machine → Machine → Prop} [Machine.Unfolding R] (hn : number.Keeps R)
    (t : Token) (v : VariableCommand) : (resolve number t v).Keeps R := by
  have hrelates : number.Relates (Run.Keeping R) number := hn
  exact Run.relates_resolve hrelates t v

theorem comesFrom_of_internalNumber {ref : CommandRef} {v : InternalNumber}
    (hn : number.Keeps SameStore) (hw : m.scopes.store.HoldsWords)
    (h : internalNumber number t ref m = (.ok v, m')) : v.ComesFrom m.scopes.store := by
  unfold internalNumber at h
  rw [Run.bind_of_ok (Run.lookup_eval ref m)] at h
  cases hcommand : m.lookup ref with
  | quantity command =>
    rw [hcommand] at h
    obtain ⟨w, m₁, hresolve, h⟩ := Run.exists_of_bind_eq_ok h
    have hstore := (keeps_resolve hn t _).store_eq hresolve
    cases w with
    | int v =>
      cases h
      rw [hstore]
      exact hw.yields_int v
    | dimen index =>
      cases h
      exact ⟨index, by rw [hstore]⟩
    | catCode c =>
      cases h
      exact CatCode.yields_number _
    | tokenList index => cases h
  | _ =>
    rw [hcommand] at h
    cases h

/-- What remains to be done for a number is to apply the sign. -/
theorem yields_of_signed {store : Store} {a : Run Int} {negative : Bool} {first : Token} {n : Int}
    (ha : ∀ {k m₁}, a m = (.ok k, m₁) → store.Yields k)
    (h : (a >>= fun k => pure (first, if negative = true then Word.wrap (-k) else k)) m =
      (.ok (t, n), m')) : store.Yields n := by
  obtain ⟨k, m₁, hk, h⟩ := Run.exists_of_bind_eq_ok h
  have hyields := ha hk
  cases negative with
  | true =>
    cases h
    exact hyields.wrap_neg
  | false =>
    cases h
    exact hyields

theorem yields_of_constant {store : Store} {a : Run Int} {n : Int}
    (ha : ∀ {k m₁}, a m = (.ok k, m₁) → 0 ≤ k ∧ k ≤ 2147483647)
    (h : constant s a m = (.ok n, m')) : store.Yields n := by
  obtain ⟨k, m₁, hk, h⟩ := Run.exists_of_bind_eq_ok h
  obtain ⟨blank, m₂, -, h⟩ := Run.exists_of_bind_eq_ok h
  cases h
  exact Store.yields_of_nonneg (ha hk).1 (ha hk).2

/-- Digits make a constant. -/
theorem yields_of_digits {store : Store} {r : Radix} {soFar : Nat} {started : Bool} {n : Int}
    (hsoFar : soFar ≤ 2147483647)
    (h : constant s (Int.ofNat <$> digits s r soFar started) m = (.ok n, m')) : store.Yields n := by
  refine yields_of_constant (fun {k m₁} hk => ?_) h
  rw [map_eq_pure_bind] at hk
  obtain ⟨d, m₂, hd, hk⟩ := Run.exists_of_bind_eq_ok hk
  cases hk
  have hle := digits_le hsoFar hd
  exact ⟨Int.natCast_nonneg d, Int.ofNat_le.2 hle⟩

/-- A number is a word, and the least one only if a register holds it. -/
theorem yields_of_numberWith {n : Int} (hx : ∀ t, (x t).Keeps SameStore)
    (hn : number.Keeps SameStore) (hw : m.scopes.store.HoldsWords)
    (h : numberWith x number m = (.ok (t, n), m')) : m.scopes.store.Yields n := by
  have hs : (Stream.expanded x).Keeps SameStore :=
    Run.relates_expanded fun t => (hx t).respects
  obtain ⟨negative, m₁, hsigns, h⟩ := Run.exists_of_bind_eq_ok h
  obtain ⟨first, m₂, hfirst, h⟩ := Run.exists_of_bind_eq_ok h
  have hstore : m₂.scopes.store = m.scopes.store :=
    ((Run.keeps_nextOr hs _).store_eq hfirst).trans
      ((Run.keeps_signs hs).store_eq hsigns)
  obtain ⟨value, key⟩ := first
  cases value with
  | char category c =>
    cases category with
    | other =>
      dsimp only at h
      cases hd : decimalDigit? c with
      | some d =>
        rw [hd] at h
        have hlt := decimalDigit?_lt hd
        exact yields_of_signed (yields_of_digits (by omega)) h
      | none =>
        rw [hd] at h
        dsimp only at h
        by_cases hoctal : c = '\''
        · rw [if_pos hoctal] at h
          exact yields_of_signed (yields_of_digits (Nat.zero_le _)) h
        · rw [if_neg hoctal] at h
          by_cases hhexadecimal : c = '"'
          · rw [if_pos hhexadecimal] at h
            exact yields_of_signed (yields_of_digits (Nat.zero_le _)) h
          · rw [if_neg hhexadecimal] at h
            by_cases hcharacter : c = '`'
            · rw [if_pos hcharacter] at h
              exact yields_of_signed (yields_of_constant character_le) h
            · rw [if_neg hcharacter] at h
              cases h
    | _ => cases h
  | command ref =>
    obtain ⟨v, m₃, hv, h⟩ := Run.exists_of_bind_eq_ok h
    have hfrom := comesFrom_of_internalNumber hn (hstore ▸ hw) hv
    rw [hstore] at hfrom
    cases v with
    | integer n =>
      refine yields_of_signed (a := pure n) (fun {k m₁} hk => ?_) h
      cases hk
      exact hfrom
    | dimen d =>
      obtain ⟨index, rfl⟩ := hfrom
      refine yields_of_signed (a := pure _) (fun {k m₁} hk => ?_) h
      cases hk
      exact hw.yields_dimen index

end

theorem keeps_numberAt {R : Machine → Machine → Prop} [Machine.Unfolding R]
    (hx : ∀ t, (x t).Keeps R) : (numberAt x).Keeps R :=
  Run.relates_numberAt fun t => (hx t).respects

theorem yields_of_numberAt {n : Int} (hx : ∀ t, (x t).Keeps SameStore)
    (hw : m.scopes.store.HoldsWords) (h : numberAt x m = (.ok (t, n), m')) :
    m.scopes.store.Yields n := by
  unfold numberAt at h
  rw [Run.fix_eq] at h
  refine yields_of_numberWith hx (fun m₁ => ?_) hw h
  split
  · exact keeps_numberAt hx m₁
  · exact refl_of SameStore m₁

theorem yields_of_number {n : Int} (hx : ∀ t, (x t).Keeps SameStore)
    (hw : m.scopes.store.HoldsWords) (h : Reader.number x m = (.ok n, m')) :
    m.scopes.store.Yields n := by
  obtain ⟨⟨first, k⟩, m₁, hk, h⟩ := Run.exists_of_bind_eq_ok h
  cases h
  exact yields_of_numberAt hx hw hk

/-! ### Dimensions -/

theorem digit?_decimal_lt {v : TokenValue} {d : Nat} (h : digit? .decimal v = some d) : d < 10 := by
  cases v with
  | command ref => cases h
  | char category c =>
    cases category with
    | other =>
      unfold digit? at h
      dsimp only at h
      cases hd : decimalDigit? c with
      | none =>
        rw [hd] at h
        cases h
      | some k =>
        simp only [hd, Option.ite_none_right_eq_some, Option.some.injEq] at h
        exact h.2 ▸ h.1
    | letter => cases h
    | _ => cases h

theorem of_decimalRound {sofar : List Nat} {next : List Nat ⊕ List Nat} (hsofar : ∀ k ∈ sofar, k < 10)
    (h : decimalRound s sofar m = (.ok next, m')) :
    Sum.elim (fun sofar _ => ∀ k ∈ sofar, k < 10) (fun sofar _ => ∀ k ∈ sofar, k < 10) next m' := by
  unfold decimalRound at h
  obtain ⟨t?, m₁, -, h⟩ := Run.exists_of_bind_eq_ok h
  cases t? with
  | none =>
    cases h
    exact hsofar
  | some t =>
    obtain ⟨value, key⟩ := t
    by_cases hother : ∃ c, value = .char .other c
    · obtain ⟨c, rfl⟩ := hother
      dsimp only at h
      cases hd : digit? .decimal (.char .other c) with
      | none =>
        rw [hd] at h
        cases h
        exact hsofar
      | some d =>
        rw [hd] at h
        cases h
        show ∀ k ∈ (if sofar.length < fractionDigits then d :: sofar else sofar), k < 10
        split
        · exact List.forall_mem_cons.2 ⟨digit?_decimal_lt hd, hsofar⟩
        · exact hsofar
    · cases value with
      | command ref =>
        cases h
        exact hsofar
      | char category c =>
        cases category with
        | other => exact absurd ⟨c, rfl⟩ hother
        | _ =>
          cases h
          exact hsofar

/-- The decimals of a number make at most a whole point. -/
theorem decimals_mem {d : Dimen} (h : decimals s m = (.ok d, m')) :
    0 ≤ d.scaled ∧ d.scaled ≤ Dimen.unity := by
  rw [decimals_eq] at h
  obtain ⟨digits, m₁, hloop, h⟩ := Run.exists_of_bind_eq_ok h
  cases h
  refine Dimen.ofDecimalFraction_mem fun k hk => ?_
  have hdigits : ∀ k ∈ digits, k < 10 :=
    Run.of_loop_eq_ok (fun sofar _ => ∀ k ∈ sofar, k < 10) (fun sofar _ => ∀ k ∈ sofar, k < 10)
      of_decimalRound (List.forall_mem_nil _) hloop
  exact hdigits k (List.mem_reverse.1 hk)

/-- The length that a unit or a variable gives to a number, which has lost its sign. -/
theorem of_scaled {whole : Int} {part d : Dimen} (hwhole : 0 ≤ whole ∨ whole = Word.least)
    (hpart : 0 ≤ part.scaled ∧ part.scaled ≤ Dimen.unity)
    (h : scaled x whole part m = (.ok (some d), m')) :
    d.isLegal = true ∨ d.scaled = 1073741824 ∨ whole = Word.least ∧ d.scaled = Word.least := by
  rw [scaled_eq] at h
  obtain ⟨f, m₁, -, h⟩ := Run.exists_of_bind_eq_ok h
  obtain ⟨hvalue, -⟩ := Prod.mk.inj h
  have hvalue : multiply? whole part f = some d := Except.ok.inj hvalue
  cases f with
  | inl u =>
    rcases LengthUnit.times?_cases hwhole hpart hvalue with
      hlegal | ⟨-, -, -, hround⟩ | ⟨-, hleast, hd⟩
    · exact .inl hlegal
    · exact .inr (.inl hround)
    · exact .inr (.inr ⟨hleast, hd⟩)
  | inr v =>
    -- a variable is multiplied by operations that are checked
    obtain ⟨r, -, hmul⟩ := Option.bind_eq_some_iff.1 hvalue
    exact .inl (Dimen.isLegal_of_mulAdd? hmul)

/-- The negative of a dimension is given, unless it is the least word. -/
theorem of_negate {d d' : Dimen} (h : negate d m = (.ok d', m')) :
    d.scaled ≠ Word.least ∧ d' = -d := by
  unfold negate at h
  split at h
  · cases h
  · rename_i hne
    cases h
    exact ⟨hne, rfl⟩

/-- The number that is given to a unit has lost its sign. -/
theorem magnitude_cases {store : Store} {whole : Int} (hwhole : store.Yields whole) (negative : Bool) :
    let r := if whole < 0 then (!negative, Word.wrap (-whole)) else (negative, whole)
    0 ≤ r.2 ∨ r.2 = Word.least ∧ store.HoldsLeast := by
  dsimp only
  split
  · rename_i hneg
    exact hwhole.abs hneg
  · rename_i hneg
    exact .inl (Int.not_lt.1 hneg)

/-- A unit makes the least word of no number but that, which a register holds. -/
theorem holdsLeast_of_scaled {store : Store} {magnitude : Int} {part d : Dimen}
    (hmagnitude : 0 ≤ magnitude ∨ magnitude = Word.least ∧ store.HoldsLeast)
    (hpart : 0 ≤ part.scaled ∧ part.scaled ≤ Dimen.unity)
    (h : scaled x magnitude part m = (.ok (some d), m')) (hd : d.scaled = Word.least) :
    store.HoldsLeast := by
  rcases hmagnitude with hnonneg | ⟨-, hheld⟩
  · unfold Word.least at hd
    rcases of_scaled (.inl hnonneg) hpart h with hlegal | hround | ⟨hleast, -⟩
    · rw [Dimen.isLegal_iff] at hlegal
      omega
    · omega
    · unfold Word.least at hleast
      omega
  · exact hheld

/-- Where a dimension that is read can come from. -/
inductive IsReadFrom (store : Store) (d : Dimen) : Prop where
  | legal (h : d.isLegal = true)
  /-- A register is read unchecked. -/
  | held (index : Nat) (h : d = store.dimen index)
  | negated (index : Nat) (hne : (store.dimen index).scaled ≠ Word.least) (h : d = -store.dimen index)
  /-- Decimals are rounded up to a whole point. -/
  | rounded (h : d.scaled.natAbs = 1073741824)
  /-- The least word is a number of scaled points. -/
  | least (h : d.scaled = Word.least) (hleast : store.HoldsLeast)

/-- A dimension that is read is a word, and it is the least one only if a register holds that. -/
theorem IsReadFrom.yields {store : Store} {d : Dimen} (hw : store.HoldsWords)
    (h : IsReadFrom store d) : store.Yields d.scaled := by
  cases h with
  | legal h => exact Store.yields_of_isLegal h
  | held index h =>
    rw [h]
    exact hw.yields_dimen index
  | negated index hne h =>
    rw [h]
    exact (hw.yields_dimen index).neg hne
  | rounded h =>
    refine ⟨?_, fun hleast => ?_⟩
    · rw [Word.fits_iff]
      omega
    · unfold Word.least at hleast
      omega
  | least h hleast =>
    rw [h]
    exact ⟨by decide, fun _ => hleast⟩

theorem isReadFrom_of_finishDimen {store : Store} {negative : Bool} {first : Token} {whole : Int}
    {part d : Dimen} (hwhole : store.Yields whole)
    (hpart : 0 ≤ part.scaled ∧ part.scaled ≤ Dimen.unity)
    (h : finishDimen x negative first whole part m = (.ok d, m')) : IsReadFrom store d := by
  unfold finishDimen at h
  have hmagnitude := magnitude_cases hwhole negative
  generalize (if whole < 0 then (!negative, Word.wrap (-whole)) else (negative, whole)) = r at h hmagnitude
  obtain ⟨turned, magnitude⟩ := r
  obtain ⟨given, m₁, hscaled, h⟩ := Run.exists_of_bind_eq_ok h
  cases given with
  | none => cases h
  | some length =>
    have hlength := of_scaled (hmagnitude.imp_right And.left) hpart hscaled
    have hleast := holdsLeast_of_scaled hmagnitude hpart hscaled
    cases turned with
    | false =>
      cases h
      rcases hlength with hlegal | hround | hl
      · exact .legal hlegal
      · exact .rounded (by rw [hround]; rfl)
      · exact .least hl.2 (hleast hl.2)
    | true =>
      obtain ⟨hne, rfl⟩ := of_negate h
      rcases hlength with hlegal | hround | hl
      · exact .legal (by rw [Dimen.isLegal_neg]; exact hlegal)
      · exact .rounded (by rw [Dimen.scaled_neg, hround]; rfl)
      · exact absurd hl.2 hne

/-! ### What a dimension begins with -/

/-- Reads what a dimension begins with: a variable that holds one, or a number with its decimals. -/
def dimenStart (x : Expander) (first : Token) : Run (Dimen ⊕ Int × Dimen) := do
  let s := Stream.expanded x
  match first.value with
  | .command ref =>
    match ← internalNumber (numberAt x) first ref with
    | .integer n => return .inr (n, .zero)
    | .dimen d => return .inl d
  | v =>
    if (point? v).isSome then return .inr (0, ← decimals s)
    else
      match v, digit? .decimal v with
      | .char .other _, some d =>
        let n ← digits s .decimal d true
        match ← s.take? point? with
        | some () => return .inr (n, ← decimals s)
        | none => return .inr (n, .zero)
      | _, _ =>
        Run.pushBack first
        return .inr (← number x, .zero)

theorem respects_dimenStart {P : Run.Relation} [Run.Compositional P] (hx : ∀ t, (x t).Respects P)
    (first : Token) : (dimenStart x first).Respects P := by
  have hs : (Stream.expanded x).Respects P := Run.relates_expanded hx
  unfold dimenStart
  split
  · refine (Run.relates_internalNumber (Run.relates_numberAt hx) _ _).bind fun v => ?_
    cases v <;> exact Run.respects_pure _
  · grind

/-- A dimension that a variable holds is complete, and anything else needs a unit. -/
theorem dimen_eq (x : Expander) :
    dimen x = (do
      let negative ← signs (Stream.expanded x)
      let first ← (Stream.expanded x).nextOr .dimen
      match ← dimenStart x first with
      | .inl d => if negative then negate d else return d
      | .inr (whole, part) => finishDimen x negative first whole part) := by
  refine bind_congr fun negative => bind_congr fun first => ?_
  obtain ⟨value, key⟩ := first
  unfold dimenStart
  cases value with
  | command ref =>
    dsimp only
    rw [bind_assoc]
    refine bind_congr fun v => ?_
    cases v <;> rfl
  | char category c =>
    dsimp only
    split
    · rw [bind_assoc]
      rfl
    · by_cases hother : category = .other
      · subst hother
        cases digit? .decimal (.char .other c) with
        | none => simp only [bind_assoc, pure_bind]
        | some d =>
          dsimp only
          rw [bind_assoc]
          refine bind_congr fun n => ?_
          rw [bind_assoc]
          refine bind_congr fun point => ?_
          cases point <;> simp only [bind_assoc, pure_bind]
      · cases category with
        | other => exact absurd rfl hother
        | _ => simp only [bind_assoc, pure_bind]

/-- What a dimension can begin with: what a register holds, or a number with at most a whole point. -/
def IsStart (store : Store) : Dimen ⊕ Int × Dimen → Prop
  | .inl d => ∃ index, d = store.dimen index
  | .inr (whole, part) => store.Yields whole ∧ 0 ≤ part.scaled ∧ part.scaled ≤ Dimen.unity

theorem isStart_zero {store : Store} {n : Int} (h : store.Yields n) : IsStart store (.inr (n, .zero)) :=
  ⟨h, by decide, by decide⟩

/-- Where a dimension begins with no digit of its own, the number in front of the unit is read as a whole. -/
theorem isStart_of_number {first : Token} {start : Dimen ⊕ Int × Dimen}
    (hx : ∀ t, (x t).Keeps SameStore) (hw : m.scopes.store.HoldsWords)
    (h : (do
      Run.pushBack first
      return .inr (← number x, .zero) : Run (Dimen ⊕ Int × Dimen)) m = (.ok start, m')) :
    IsStart m.scopes.store start := by
  obtain ⟨_, m₁, hpush, h⟩ := Run.exists_of_bind_eq_ok h
  obtain ⟨n, m₂, hn, h⟩ := Run.exists_of_bind_eq_ok h
  have hstore := (Run.keeps_pushBack (R := SameStore) _).store_eq hpush
  have hyields := yields_of_number hx (hstore ▸ hw) hn
  rw [hstore] at hyields
  cases h
  exact isStart_zero hyields

/-- Digits, and decimals if a point follows. -/
theorem isStart_of_digits {store : Store} {d : Nat} {start : Dimen ⊕ Int × Dimen} (hd : d < 10)
    (h : (do
      let n ← digits s .decimal d true
      match ← s.take? point? with
      | some () => return .inr (n, ← decimals s)
      | none => return .inr (n, .zero) : Run (Dimen ⊕ Int × Dimen)) m = (.ok start, m')) :
    IsStart store start := by
  obtain ⟨n, m₁, hn, h⟩ := Run.exists_of_bind_eq_ok h
  have hyields : store.Yields n :=
    Store.yields_of_nonneg (Int.natCast_nonneg n) (Int.ofNat_le.2 (digits_le (by omega) hn))
  obtain ⟨point, m₂, -, h⟩ := Run.exists_of_bind_eq_ok h
  cases point with
  | none =>
    cases h
    exact isStart_zero hyields
  | some _ =>
    obtain ⟨part, m₃, hpart, h⟩ := Run.exists_of_bind_eq_ok h
    cases h
    exact ⟨hyields, decimals_mem hpart⟩

theorem isStart_of_dimenStart {first : Token} {start : Dimen ⊕ Int × Dimen}
    (hx : ∀ t, (x t).Keeps SameStore) (hw : m.scopes.store.HoldsWords)
    (h : dimenStart x first m = (.ok start, m')) : IsStart m.scopes.store start := by
  obtain ⟨value, key⟩ := first
  cases value with
  | command ref =>
    obtain ⟨v, m₁, hv, h⟩ := Run.exists_of_bind_eq_ok h
    have hfrom := comesFrom_of_internalNumber (keeps_numberAt hx) hw hv
    cases v with
    | integer n =>
      cases h
      exact isStart_zero hfrom
    | dimen d =>
      cases h
      exact hfrom
  | char category c =>
    unfold dimenStart at h
    dsimp only at h
    split at h
    · obtain ⟨part, m₁, hpart, h⟩ := Run.exists_of_bind_eq_ok h
      cases h
      exact ⟨Store.yields_of_nonneg (by decide) (by decide), decimals_mem hpart⟩
    · by_cases hother : category = .other
      · subst hother
        cases hd : digit? .decimal (.char .other c) with
        | none =>
          rw [hd] at h
          exact isStart_of_number hx hw h
        | some d =>
          rw [hd] at h
          exact isStart_of_digits (digit?_decimal_lt hd) h
      · cases category with
        | other => exact absurd rfl hother
        | _ => exact isStart_of_number hx hw h

theorem isReadFrom_of_dimen {d : Dimen} (hw : m.scopes.store.HoldsWords)
    (h : Reader.dimen expand m = (.ok d, m')) : IsReadFrom m.scopes.store d := by
  have hx (t : Token) : (expand t).Keeps SameStore := Run.keeps_expand t
  have hs : (Stream.expanded expand).Keeps SameStore := Run.keeps_main
  rw [dimen_eq] at h
  obtain ⟨negative, m₁, hsigns, h⟩ := Run.exists_of_bind_eq_ok h
  obtain ⟨first, m₂, hfirst, h⟩ := Run.exists_of_bind_eq_ok h
  obtain ⟨start, m₃, hread, h⟩ := Run.exists_of_bind_eq_ok h
  have hstore : m₂.scopes.store = m.scopes.store :=
    ((Run.keeps_nextOr hs _).store_eq hfirst).trans
      ((Run.keeps_signs hs).store_eq hsigns)
  have hstart := isStart_of_dimenStart hx (hstore ▸ hw) hread
  rw [hstore] at hstart
  cases start with
  | inl held =>
    obtain ⟨index, rfl⟩ := hstart
    cases negative with
    | false =>
      cases h
      exact .held index rfl
    | true =>
      obtain ⟨hne, hd⟩ := of_negate h
      exact .negated index hne hd
  | inr number => exact isReadFrom_of_finishDimen hstart.1 hstart.2 h

/-- **The dimensions that are read.** A dimension that is read is legal, or
it is what a dimension register holds or the negative of that, which is read unchecked; or
it lies one scaled point beyond the range, since decimals have been rounded up to a whole point; or
it is the least word, which a register holds and which has been read as a number of scaled points. -/
theorem dimen_cases {d : Dimen} (hw : m.scopes.store.HoldsWords)
    (h : Reader.dimen expand m = (.ok d, m')) :
    d.isLegal = true ∨
      (∃ index, d = m.scopes.store.dimen index ∨ d = -m.scopes.store.dimen index) ∨
      d.scaled.natAbs = 1073741824 ∨
      d.scaled = Word.least ∧ m.scopes.store.HoldsLeast := by
  cases isReadFrom_of_dimen hw h with
  | legal h => exact .inl h
  | held index h => exact .inr (.inl ⟨index, .inl h⟩)
  | negated index _ h => exact .inr (.inl ⟨index, .inr h⟩)
  | rounded h => exact .inr (.inr (.inl h))
  | least h hleast => exact .inr (.inr (.inr ⟨h, hleast⟩))

/-- `16383.999999pt` is read as a dimension that is not legal. -/
theorem dimen_cases_rounded :
    let m := Machine.ready.push (Token.ofText "16383.999999pt" none)
    m.scopes.store.HoldsWords ∧
      ∃ d m', Reader.dimen expand m = (.ok d, m') ∧ d.isLegal = false ∧
        ((∃ index, d = m.scopes.store.dimen index ∨ d = -m.scopes.store.dimen index) ∨
          d.scaled.natAbs = 1073741824 ∨ d.scaled = Word.least ∧ m.scopes.store.HoldsLeast) := by
  let nines : List (Fin 10 × SourceKey) := List.replicate 6 (9, none)
  let points : List (Fin 10 × SourceKey) := [6, 3, 8, 3].map (·, none)
  have hbefore : Machine.ready.Before (((Token.minusSign false none).toList ++
      Constant.digitToken (1, none) :: (points.map Constant.digitToken ++
        [.char .other '.' none])).map .ok ++ ((nines.map Constant.digitToken).map .ok ++
          (['p', 't'].map (Token.char .other · none)).map .ok))
      (Machine.ready.push (Token.ofText "16383.999999pt" none)) :=
    Machine.before_ready.push (Token.ofText "16383.999999pt" none)
  obtain ⟨m₁, hdimen, h₁⟩ := dimen_of_points (x := expand) (by decide) hbefore
  obtain ⟨m', hscaled, -⟩ := scaled_points (x := expand) (decimal (1 : Fin 10) points : Nat) ⟨65536⟩ h₁
  -- the decimals make a whole point
  have hpart : Dimen.ofDecimalFraction (nines.map (·.1.1)) = ⟨65536⟩ := by decide
  have hpoints : LengthUnit.point.times? (decimal (1 : Fin 10) points : Nat) ⟨65536⟩ =
      some ⟨1073741824⟩ := by decide
  have hread : Reader.dimen expand (Machine.ready.push (Token.ofText "16383.999999pt" none)) =
      (.ok ⟨1073741824⟩, m') := by
    rw [hdimen, hpart]
    unfold finishDimen
    rw [if_neg (by decide)]
    dsimp only
    rw [Run.bind_of_ok hscaled, hpoints]
    rfl
  refine ⟨Store.holdsWords_empty, ⟨1073741824⟩, m', hread, by decide, ?_⟩
  exact (dimen_cases Store.holdsWords_empty hread).resolve_left (by decide)

end Reader

end Gullet
