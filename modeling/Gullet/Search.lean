/-!
# Searching a sequence for a pattern

A matcher is built once for a pattern. A search is then fed the elements of a sequence one at a time
and tells at each element whether the pattern ends there. It never looks back at the sequence: the
failure table says how much of the pattern is still matched when the next element does not continue it.
-/

namespace Gullet

/-- A pattern with its failure table. -/
structure Matcher (α : Type u) where
  /-- The elements to be found. -/
  pattern : Array α
  /-- At `i`, the length of the longest proper border of the first `i + 1` elements. -/
  failure : Array Nat
  /-- The table has an entry for every element. -/
  size_failure : failure.size = pattern.size
  /-- A border is shorter than what it is a border of. -/
  failure_le : ∀ i, (h : i < failure.size) → failure[i] ≤ i

namespace Matcher

variable {α : Type u} [DecidableEq α]

/-- How many elements of the pattern are matched after reading `x`, if `k` were matched before. The
failure table need only be known for the first `k` elements. -/
def advance (pattern : Array α) (failure : Array Nat)
    (failure_le : ∀ i, (h : i < failure.size) → failure[i] ≤ i) (x : α) (k : Nat) : Nat :=
  if pattern[k]? = some x then k + 1
  else if h : 0 < k ∧ k - 1 < failure.size then
    advance pattern failure failure_le x failure[k - 1]
  else 0
termination_by k
decreasing_by
  have := failure_le (k - 1) h.2
  omega

/-- At most one more element is matched than before. -/
theorem advance_le (pattern : Array α) (failure : Array Nat)
    (failure_le : ∀ i, (h : i < failure.size) → failure[i] ≤ i) (x : α) (k : Nat) :
    advance pattern failure failure_le x k ≤ k + 1 := by
  fun_induction advance pattern failure failure_le x k with
  | case1 => exact Nat.le_refl _
  | case2 k hne h ih =>
    have := failure_le (k - 1) h.2
    omega
  | case3 => exact Nat.zero_le _

/-- A failure table under construction, for the first elements of a pattern. -/
structure Table where
  /-- The entries found so far. -/
  failure : Array Nat
  /-- A border is shorter than what it is a border of. -/
  failure_le : ∀ i, (h : i < failure.size) → failure[i] ≤ i

/-- The last entry of the table, or zero. -/
def Table.border (t : Table) : Nat := t.failure.back?.getD 0

theorem Table.border_le (t : Table) : t.border ≤ t.failure.size - 1 := by
  unfold border
  by_cases h : t.failure.size = 0
  · have : t.failure = #[] := Array.eq_empty_of_size_eq_zero h
    simp [this]
  · have hlt : t.failure.size - 1 < t.failure.size := by omega
    have := t.failure_le (t.failure.size - 1) hlt
    simpa [Array.back?, Array.getElem?_eq_getElem hlt] using this

/-- The table with the entry for one more element. The first element has no proper border. -/
def Table.extend (pattern : Array α) (t : Table) (x : α) : Table where
  failure := t.failure.push <|
    if t.failure.size = 0 then 0 else advance pattern t.failure t.failure_le x t.border
  failure_le i h := by
    rw [Array.getElem_push]
    split
    · exact t.failure_le i _
    · have h₁ := t.border_le
      have h₂ := advance_le pattern t.failure t.failure_le x t.border
      simp only [Array.size_push] at h
      split <;> omega

@[simp] theorem Table.size_extend (pattern : Array α) (t : Table) (x : α) :
    (t.extend pattern x).failure.size = t.failure.size + 1 := by
  simp [extend]

/-- The table for the elements read so far, extended over the remaining ones. -/
def Table.complete (pattern : Array α) (t : Table) : List α → Table
  | [] => t
  | x :: rest => complete pattern (t.extend pattern x) rest

theorem Table.size_complete (pattern : Array α) (t : Table) (xs : List α) :
    (t.complete pattern xs).failure.size = t.failure.size + xs.length := by
  induction xs generalizing t with
  | nil => rfl
  | cons x rest ih => rw [complete, ih, size_extend, List.length_cons]; omega

/-- The matcher for a pattern. -/
def ofList (pattern : List α) : Matcher α :=
  let table := Table.complete pattern.toArray ⟨#[], by simp⟩ pattern
  { pattern := pattern.toArray
    failure := table.failure
    size_failure := by simp [table, Table.size_complete]
    failure_le := table.failure_le }

@[simp] theorem pattern_ofList (pattern : List α) : (ofList pattern).pattern = pattern.toArray := rfl

/-- Feeds one element to a search in which `matched` elements are matched. Gives the number matched
afterwards and whether the pattern ends at this element. -/
def feed (m : Matcher α) (matched : Nat) (x : α) : Nat × Bool :=
  if m.pattern.size = 0 then (matched, false)
  else
    let k := advance m.pattern m.failure m.failure_le x matched
    if k = m.pattern.size then (m.failure.back?.getD 0, true) else (k, false)

/-- For each element of a sequence in turn, whether the pattern ends there. -/
def hitsFrom (m : Matcher α) (matched : Nat) : List α → List Bool
  | [] => []
  | x :: rest =>
    let (matched, hit) := m.feed matched x
    hit :: hitsFrom m matched rest

/-- For each element of a sequence, whether the pattern ends there. -/
def hits (m : Matcher α) (xs : List α) : List Bool := m.hitsFrom 0 xs

/-- Matchers for the same pattern are the same. -/
instance : BEq (Matcher α) := ⟨fun a b => a.pattern == b.pattern⟩

end Matcher

end Gullet
