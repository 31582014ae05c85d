import Gullet.Proofs.Search.Matching

/-!
# Every occurrence is found

A search tells of an element exactly if the pattern ends there. It is compared with a search that gives
up where it would look at an element of the pattern or at an entry of the failure table that does not
exist, or where it would not fall back: that search never gives up, and finds the same.
-/

namespace Gullet.Matcher

variable {α : Type u} [DecidableEq α] {p xs : List α} {x : α} {k : Nat}

/-! ### What is found -/

@[simp] theorem length_hitsFrom (m : Matcher α) (k : Nat) (xs : List α) :
    (m.hitsFrom k xs).length = xs.length := by
  induction xs generalizing k with
  | nil => rfl
  | cons x rest ih => simp [hitsFrom, ih]

/-- The empty pattern is found nowhere. -/
theorem hitsFrom_ofList_nil (k : Nat) (xs : List α) :
    (ofList ([] : List α)).hitsFrom k xs = List.replicate xs.length false := by
  induction xs generalizing k with
  | nil => rfl
  | cons x rest ih => simp [hitsFrom, feed, ih, List.replicate_succ]

/-- A search that knows the longest match so far tells of the elements at which the pattern ends. -/
theorem getElem?_hitsFrom_iff {seen : List α} (hk : Longest p seen p.length k) (xs : List α)
    (i : Nat) :
    ((ofList p).hitsFrom k xs)[i]? = some true ↔
      i < xs.length ∧ p <:+ seen ++ xs.take (i + 1) := by
  induction xs generalizing seen k i with
  | nil => simp [hitsFrom]
  | cons x rest ih =>
    obtain ⟨hhit, hnext⟩ := feed_ofList hk x
    cases i with
    | zero => simp [hitsFrom, hhit]
    | succ i => simp [hitsFrom, ih hnext, List.append_assoc]

/-! ### Looking with care -/

/-- How many elements are matched after reading `x`, as long as there is an element of the pattern to
compare `x` with, an entry of the table to fall back to, and less matched after falling back. -/
def advance? (pattern : Array α) (failure : Array Nat) (x : α) (k : Nat) : Option Nat :=
  match pattern[k]? with
  | none => none
  | some y =>
    if y = x then some (k + 1)
    else if k = 0 then some 0
    else
      match failure[k - 1]? with
      | none => none
      | some j => if j < k then advance? pattern failure x j else none
termination_by k

/-- The failure table, with the entries `failure` for what was read and `k` as the last one of them. -/
def table? (pattern : Array α) (failure : Array Nat) (k : Nat) : List α → Option (Array Nat)
  | [] => some failure
  | x :: rest => do
    -- The first element is not compared with anything.
    let k ← if failure.size = 0 then some 0 else advance? pattern failure x k
    table? pattern (failure.push k) k rest

/-- For each element in turn whether the pattern ends there, with `k` elements matched before. -/
def hitsFrom? (pattern : Array α) (failure : Array Nat) (k : Nat) : List α → Option (List Bool)
  | [] => some []
  | x :: rest =>
    if pattern.size = 0 then do
      let hits ← hitsFrom? pattern failure k rest
      some (false :: hits)
    else do
      let k ← advance? pattern failure x k
      if k = pattern.size then do
        let border ← failure[k - 1]?
        let hits ← hitsFrom? pattern failure border rest
        some (true :: hits)
      else do
        let hits ← hitsFrom? pattern failure k rest
        some (false :: hits)

/-- For each element whether the pattern ends there. -/
def hits? (p xs : List α) : Option (List Bool) := do
  let failure ← table? p.toArray #[] 0 p
  hitsFrom? p.toArray failure 0 xs

/-- From a match that is not the whole pattern, and for whose elements the table is known, one never
looks outside. -/
theorem advance?_eq_some {pattern : Array α} {failure : Array Nat}
    (failure_le : ∀ i, (h : i < failure.size) → failure[i] ≤ i) (hk : k < pattern.size)
    (hsize : k ≤ failure.size) :
    advance? pattern failure x k = some (advance pattern failure failure_le x k) := by
  fun_induction advance pattern failure failure_le x k with
  | case1 k hx => simp [advance?, hx]
  | case2 k hx h ih =>
    have hle := failure_le (k - 1) h.2
    have hne : ¬ pattern[k] = x := by simpa [Array.getElem?_eq_getElem hk] using hx
    have hlt : failure[k - 1] < k := by omega
    have hpos : k ≠ 0 := by omega
    rw [advance?, Array.getElem?_eq_getElem hk, Array.getElem?_eq_getElem h.2]
    simp only [hne, hpos, hlt, if_true, if_false]
    exact ih (by omega) (by omega)
  | case3 k hx h =>
    obtain rfl : k = 0 := by omega
    have hne : ¬ pattern[0] = x := by simpa [Array.getElem?_eq_getElem hk] using hx
    rw [advance?, Array.getElem?_eq_getElem hk]
    simp only [hne, if_true, if_false]

/-- While the table is built, the last border is short enough to look from. -/
theorem table?_eq_some {t : Table} {rest : List α} {pattern : Array α}
    (hsize : t.failure.size + rest.length = pattern.size) :
    table? pattern t.failure t.border rest = some (t.complete pattern rest).failure := by
  induction rest generalizing t with
  | nil => rfl
  | cons x rest ih =>
    rw [List.length_cons] at hsize
    have hlast : (t.extend pattern x).border =
        if t.failure.size = 0 then 0 else advance pattern t.failure t.failure_le x t.border := by
      simp [Table.border, Table.extend]
    have hnext := ih (t := t.extend pattern x) (by rw [Table.size_extend]; omega)
    have hborder := t.border_le
    rw [Table.complete, ← hnext, hlast, table?]
    by_cases hzero : t.failure.size = 0
    · simp [Table.extend, hzero]
    · have hadvance := advance?_eq_some (x := x) t.failure_le
        (show t.border < pattern.size by omega) (show t.border ≤ t.failure.size by omega)
      simp [Table.extend, hzero, hadvance]

theorem table?_ofList (p : List α) : table? p.toArray #[] 0 p = some (ofList p).failure :=
  table?_eq_some (t := ⟨#[], by simp⟩) (by simp)

/-- A search that knows the longest match so far never looks outside. -/
theorem hitsFrom?_ofList {seen : List α} (hk : Longest p seen p.length k) (xs : List α) :
    hitsFrom? p.toArray (ofList p).failure k xs = some ((ofList p).hitsFrom k xs) := by
  induction xs generalizing seen k with
  | nil => rfl
  | cons x rest ih =>
    have hsize : (ofList p).failure.size = p.length := by
      rw [(ofList p).size_failure, pattern_ofList, List.size_toArray]
    have hpos : p.length ≠ 0 := Nat.ne_of_gt (Nat.zero_lt_of_lt hk.lt)
    have hlt : k < p.toArray.size := hk.lt
    have hadvance := advance?_eq_some (x := x) (ofList p).failure_le hlt
      (by rw [hsize]; exact Nat.le_of_lt hk.lt)
    have hnext := ih (feed_ofList hk x).2
    rw [hitsFrom?, hitsFrom, hadvance]
    simp only [feed, pattern_ofList, List.size_toArray, hpos, if_false, Option.bind_eq_bind,
      Option.bind_some] at hnext ⊢
    by_cases hwhole : advance p.toArray (ofList p).failure (ofList p).failure_le x k = p.length
    · have hlast : (ofList p).failure[p.length - 1]? = some ((ofList p).failure.back?.getD 0) := by
        rw [Array.back?, hsize, Array.getElem?_eq_getElem (by omega), Option.getD_some]
      simp only [hwhole, if_true, hlast, Option.bind_some] at hnext ⊢
      rw [hnext, Option.bind_some]
    · simp only [hwhole, if_false] at hnext ⊢
      rw [hnext, Option.bind_some]

theorem hits?_eq_some (p xs : List α) : hits? p xs = some ((ofList p).hits xs) := by
  rw [hits?, table?_ofList, Option.bind_eq_bind, Option.bind_some, hits]
  by_cases hp : p = []
  · subst hp
    induction xs with
    | nil => rfl
    | cons x rest ih => simp [hitsFrom?, hitsFrom, feed, ih]
  · exact hitsFrom?_ofList (longest_nil hp) xs

/-! ### The search as a whole -/

/-- A fresh search tells of an element exactly if the pattern is not empty and ends there, and neither
the search nor the construction of the table ever looks outside the pattern or the table. -/
theorem hits_exact (p xs : List α) :
    ((ofList p).hits xs).length = xs.length ∧
      (∀ i, ((ofList p).hits xs)[i]? = some true ↔
        i < xs.length ∧ p ≠ [] ∧ p <:+ xs.take (i + 1)) ∧
      hits? p xs = some ((ofList p).hits xs) := by
  refine ⟨length_hitsFrom _ _ _, fun i => ?_, hits?_eq_some p xs⟩
  by_cases hp : p = []
  · subst hp
    simp [hits, hitsFrom_ofList_nil, List.getElem?_replicate]
  · rw [hits, getElem?_hitsFrom_iff (longest_nil hp), List.nil_append]
    simp [hp]

/-- Occurrences that overlap are all found, also those that begin inside the last one. -/
example : (ofList ['a', 'b', 'a']).hits ['x', 'a', 'b', 'a', 'b', 'a'] =
    [false, false, false, true, false, true] := by cbv

end Gullet.Matcher
