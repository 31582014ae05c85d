import Gullet.Search

/-!
# What a search finds

After each element a search knows how much of the pattern stands at the end of what was read: as much as
possible short of the whole pattern. So it tells of every place where the pattern ends, also where
occurrences overlap. The failure table carries this: its entries are the lengths of the longest proper
borders, which are all that has to be tried when the next element does not continue the match.
-/

namespace Gullet.Matcher

variable {α : Type u} {p xs : List α} {x : α} {j k : Nat}

/-! ### The longest match -/

/-- The first `k` elements of the pattern stand at the end of the sequence, and of all numbers below the
bound `k` is the greatest one for which this holds. -/
structure Longest (p xs : List α) (bound k : Nat) : Prop where
  lt : k < bound
  suffix : p.take k <:+ xs
  greatest : ∀ j < bound, p.take j <:+ xs → j ≤ k

/-- One more element of the pattern is matched exactly if the next element is the right one. -/
theorem take_succ_suffix_concat (hj : j < p.length) :
    p.take (j + 1) <:+ xs ++ [x] ↔ p[j]? = some x ∧ p.take j <:+ xs := by
  rw [List.take_add_one, List.getElem?_eq_getElem hj, Option.toList_some]
  constructor
  · intro h
    rcases List.suffix_concat_iff.1 h with hnil | ⟨ys, hys, hsuffix⟩
    · exact absurd hnil (List.append_ne_nil_of_right_ne_nil _ (List.cons_ne_nil _ _))
    · obtain ⟨rfl, hx⟩ := List.append_inj' hys rfl
      obtain rfl := List.singleton_inj.1 hx
      exact ⟨rfl, hsuffix⟩
  · rintro ⟨hx, ys, rfl⟩
    obtain rfl := Option.some.inj hx
    exact ⟨ys, by simp⟩

/-- Of two matches at the end of the same sequence, the shorter one is at the end of the longer one. -/
theorem take_suffix_take (hjk : j ≤ k) (hj : p.take j <:+ xs) (hk : p.take k <:+ xs) :
    p.take j <:+ p.take k := by
  refine List.suffix_of_suffix_length_le hj hk ?_
  rw [List.length_take, List.length_take]
  omega

/-- Nothing is matched at the start. -/
theorem longest_nil (hp : p ≠ []) : Longest p [] p.length 0 := by
  refine ⟨List.length_pos_iff.2 hp, List.nil_suffix, fun j hj hmatch => ?_⟩
  have hnil := List.eq_nil_of_suffix_nil hmatch
  rcases List.take_eq_nil_iff.1 hnil with hzero | hp'
  · omega
  · exact absurd hp' hp

/-! ### Borders -/

/-- The entries of the table are the lengths of the longest proper borders. -/
def Bordered (p : List α) (failure : Array Nat) : Prop :=
  ∀ i, (h : i < failure.size) → Longest p (p.take (i + 1)) (i + 1) failure[i]

/-- The last entry is the longest proper border of the elements so far. -/
theorem longest_border {t : Table} (ht : Bordered p t.failure) (hpos : 0 < t.failure.size) :
    Longest p (p.take t.failure.size) t.failure.size t.border := by
  have hlast := ht (t.failure.size - 1) (by omega)
  rw [Nat.sub_add_cancel hpos] at hlast
  have hborder : t.border = t.failure[t.failure.size - 1] := by
    unfold Table.border
    simp [Array.back?, Array.getElem?_eq_getElem (show t.failure.size - 1 < t.failure.size by omega)]
  rw [hborder]
  exact hlast

/-! ### Advancing -/

variable [DecidableEq α]

/-- If no match that the next element continues is longer than `k`, then as much is matched afterwards as
possible. -/
theorem advance_spec {failure : Array Nat}
    (failure_le : ∀ i, (h : i < failure.size) → failure[i] ≤ i) (hborders : Bordered p failure)
    {bound : Nat} (hbound : bound ≤ p.length) (hk : k ≤ failure.size) (hsuffix : p.take k <:+ xs)
    (hgreatest : ∀ j < bound, p.take (j + 1) <:+ xs ++ [x] → j ≤ k) :
    p.take (advance p.toArray failure failure_le x k) <:+ xs ++ [x] ∧
      ∀ j < bound, p.take (j + 1) <:+ xs ++ [x] →
        j + 1 ≤ advance p.toArray failure failure_le x k := by
  fun_induction advance p.toArray failure failure_le x k with
  | case1 k hx =>
    rw [List.getElem?_toArray] at hx
    obtain ⟨hlt, -⟩ := List.getElem?_eq_some_iff.1 hx
    refine ⟨(take_succ_suffix_concat hlt).2 ⟨hx, hsuffix⟩, fun j hj hmatch => ?_⟩
    have hle := hgreatest j hj hmatch
    omega
  | case2 k hx h ih =>
    rw [List.getElem?_toArray] at hx
    have hborder := hborders (k - 1) h.2
    have hpred : k - 1 + 1 = k := Nat.sub_add_cancel h.1
    rw [hpred] at hborder
    have hle := failure_le (k - 1) h.2
    refine ih (by omega) (hborder.suffix.trans hsuffix) fun j hj hmatch => ?_
    obtain ⟨hxj, hsuffixj⟩ := (take_succ_suffix_concat (by omega)).1 hmatch
    have hjk := hgreatest j hj hmatch
    -- The next element does not continue all that is matched, so it continues a proper border of it.
    have hne : j ≠ k := by
      rintro rfl
      exact hx hxj
    exact hborder.greatest j (by omega) (take_suffix_take hjk hsuffixj hsuffix)
  | case3 k hx h =>
    rw [List.getElem?_toArray] at hx
    refine ⟨List.nil_suffix, fun j hj hmatch => ?_⟩
    obtain ⟨hxj, -⟩ := (take_succ_suffix_concat (by omega)).1 hmatch
    have hjk := hgreatest j hj hmatch
    obtain rfl : j = k := by omega
    exact absurd hxj hx

/-! ### The failure table -/

theorem bordered_extend {t : Table} (ht : Bordered p t.failure) (hx : p[t.failure.size]? = some x) :
    Bordered p (t.extend p.toArray x).failure := by
  obtain ⟨hlt, rfl⟩ := List.getElem?_eq_some_iff.1 hx
  intro i hi
  unfold Table.extend at hi ⊢
  dsimp only at hi ⊢
  rw [Array.size_push] at hi
  by_cases hold : i < t.failure.size
  · rw [Array.getElem_push_lt hold]
    exact ht i hold
  · obtain rfl : i = t.failure.size := by omega
    rw [Array.getElem_push_eq]
    by_cases hzero : t.failure.size = 0
    · rw [if_pos hzero]
      exact ⟨Nat.succ_pos _, List.nil_suffix, fun j hj _ => by omega⟩
    · rw [if_neg hzero]
      have hborder := longest_border ht (Nat.pos_of_ne_zero hzero)
      have htake : p.take (t.failure.size + 1) = p.take t.failure.size ++ [p[t.failure.size]] :=
        List.take_succ_eq_append_getElem hlt
      obtain ⟨hsuffix, hgreatest⟩ := advance_spec t.failure_le ht (Nat.le_of_lt hlt)
        (Nat.le_of_lt hborder.lt) hborder.suffix fun j hj hmatch =>
          hborder.greatest j hj ((take_succ_suffix_concat (by omega)).1 hmatch).2
      rw [← htake] at hsuffix hgreatest
      have hle := advance_le p.toArray t.failure t.failure_le p[t.failure.size] t.border
      have hlt := hborder.lt
      refine ⟨by omega, hsuffix, fun j hj hmatch => ?_⟩
      cases j with
      | zero => exact Nat.zero_le _
      | succ j => exact hgreatest j (by omega) hmatch

theorem bordered_complete {t : Table} {rest : List α} (ht : Bordered p t.failure)
    (hrest : p.drop t.failure.size = rest) : Bordered p (t.complete p.toArray rest).failure := by
  induction rest generalizing t with
  | nil => exact ht
  | cons x rest ih =>
    have hx : p[t.failure.size]? = some x := by
      rw [← List.head?_drop, hrest]
      rfl
    refine ih (bordered_extend ht hx) ?_
    rw [Table.size_extend, ← List.tail_drop, hrest]
    rfl

theorem bordered_ofList (p : List α) : Bordered p (ofList p).failure :=
  bordered_complete (t := ⟨#[], by simp⟩) (fun i h => absurd h (Nat.not_lt_zero i)) rfl

/-! ### Searching -/

/-- A search tells whether the pattern ends at an element, and knows the longest match afterwards. -/
theorem feed_ofList (hk : Longest p xs p.length k) (x : α) :
    (((ofList p).feed k x).2 = true ↔ p <:+ xs ++ [x]) ∧
      Longest p (xs ++ [x]) p.length ((ofList p).feed k x).1 := by
  have hsize : (ofList p).failure.size = p.length := by
    rw [(ofList p).size_failure, pattern_ofList, List.size_toArray]
  have hpos : 0 < p.length := Nat.zero_lt_of_lt hk.lt
  have hpred : p.length - 1 + 1 = p.length := Nat.sub_add_cancel hpos
  obtain ⟨hsuffix, hgreatest⟩ := advance_spec (x := x) (ofList p).failure_le
    (bordered_ofList p) (Nat.le_refl _) (by rw [hsize]; exact Nat.le_of_lt hk.lt) hk.suffix
    fun j hj hmatch => hk.greatest j hj ((take_succ_suffix_concat hj).1 hmatch).2
  unfold feed
  rw [pattern_ofList, List.size_toArray, if_neg (Nat.ne_of_gt hpos)]
  dsimp only
  have hle : advance p.toArray (ofList p).failure (ofList p).failure_le x k ≤ p.length :=
    Nat.le_trans (advance_le _ _ _ x k) hk.lt
  generalize advance p.toArray (ofList p).failure (ofList p).failure_le x k = n
    at hsuffix hgreatest hle
  by_cases hn : n = p.length
  · rw [if_pos hn]
    rw [hn, List.take_length] at hsuffix
    -- What is left of the match is the longest proper border of the whole pattern.
    have hborder := longest_border (t := ⟨(ofList p).failure, (ofList p).failure_le⟩)
      (bordered_ofList p) (by rw [hsize]; exact hpos)
    dsimp only at hborder
    rw [hsize, List.take_length] at hborder
    refine ⟨iff_of_true rfl hsuffix, hborder.lt, hborder.suffix.trans hsuffix, fun j hj hmatch => ?_⟩
    refine hborder.greatest j hj (List.suffix_of_suffix_length_le hmatch hsuffix ?_)
    exact List.length_take_le' j p
  · rw [if_neg hn]
    refine ⟨iff_of_false Bool.false_ne_true fun hmatch => hn ?_, by omega, hsuffix, fun j hj hmatch => ?_⟩
    · rw [← List.take_length (l := p), ← hpred] at hmatch
      have hall := hgreatest (p.length - 1) (by omega) hmatch
      omega
    · cases j with
      | zero => exact Nat.zero_le _
      | succ j => exact hgreatest j (by omega) hmatch

end Gullet.Matcher
