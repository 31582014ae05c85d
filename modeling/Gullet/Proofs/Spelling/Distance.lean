import Mathlib.Order.Bounds.Basic
import Gullet.Spelling

/-!
# Distances and edits

The distance of two words is the least number of edits that turn one into the other. The rows are those
of a table that holds a number for each beginning of one word and each beginning of the other; every
number follows from three of its neighbours. That such a number of edits is enough is read off the
table; that no smaller number is follows from a step: one edit changes the distance to any word by one
at most.

The words grow at their ends while the table is built, so it is kept here for words that are read
backwards.
-/

namespace Gullet.Spelling

variable {a b : List Char} {n : Nat}

/-! ### Edits -/

/-- A character is inserted, deleted or replaced. -/
inductive Edit : List Char → List Char → Prop where
  | insert (before : List Char) (x : Char) (after : List Char) :
    Edit (before ++ after) (before ++ x :: after)
  | delete (before : List Char) (x : Char) (after : List Char) :
    Edit (before ++ x :: after) (before ++ after)
  | replace (before : List Char) (x y : Char) (after : List Char) :
    Edit (before ++ x :: after) (before ++ y :: after)

/-- As many edits as given, one after the other, turn one word into the other. -/
inductive EditsTo : Nat → List Char → List Char → Prop where
  | none (a : List Char) : EditsTo 0 a a
  | cons {n : Nat} {a b c : List Char} : Edit a b → EditsTo n b c → EditsTo (n + 1) a c

theorem Edit.cons (h : Edit a b) (x : Char) : Edit (x :: a) (x :: b) := by
  cases h with
  | insert before y after => exact .insert (x :: before) y after
  | delete before y after => exact .delete (x :: before) y after
  | replace before y z after => exact .replace (x :: before) y z after

theorem Edit.reverse (h : Edit a b) : Edit a.reverse b.reverse := by
  cases h with
  | insert before y after => simpa using Edit.insert after.reverse y before.reverse
  | delete before y after => simpa using Edit.delete after.reverse y before.reverse
  | replace before y z after => simpa using Edit.replace after.reverse y z before.reverse

namespace EditsTo

/-- Edits of a word may as well be made behind another character. -/
theorem behind (h : EditsTo n a b) (x : Char) : EditsTo n (x :: a) (x :: b) := by
  induction h with
  | none a => exact .none _
  | cons hedit _ ih => exact .cons (hedit.cons x) ih

theorem reverse (h : EditsTo n a b) : EditsTo n a.reverse b.reverse := by
  induction h with
  | none a => exact .none _
  | cons hedit _ ih => exact .cons hedit.reverse ih

theorem delete (h : EditsTo n a b) (x : Char) : EditsTo (n + 1) (x :: a) b :=
  .cons (.delete [] x a) h

theorem replace (h : EditsTo n a b) (x y : Char) : EditsTo (n + 1) (x :: a) (y :: b) :=
  .cons (.replace [] x y a) (h.behind y)

theorem insert (h : EditsTo n a b) (y : Char) : EditsTo (n + 1) a (y :: b) :=
  .cons (.insert [] y a) (h.behind y)

end EditsTo

/-! ### The table -/

/-- The number that the table holds for two beginnings, which are given from their last characters to
their first ones. -/
def entry : List Char → List Char → Nat
  | [], b => b.length
  | a, [] => a.length
  | x :: a, y :: b =>
    min (min (entry a b + if x = y then 0 else 1) (entry (x :: a) b + 1)) (entry a (y :: b) + 1)

@[simp] theorem entry_nil_left (b : List Char) : entry [] b = b.length := by simp [entry]

@[simp] theorem entry_nil_right (a : List Char) : entry a [] = a.length := by
  cases a <;> simp [entry]

theorem entry_cons_cons (x : Char) (a : List Char) (y : Char) (b : List Char) :
    entry (x :: a) (y :: b) =
      min (min (entry a b + if x = y then 0 else 1) (entry (x :: a) b + 1))
        (entry a (y :: b) + 1) := by
  rw [entry]

/-- The numbers for `b` and the longer beginnings, where the beginning `seen` goes on with `rest`. -/
def entriesBeyond (seen b : List Char) : List Char → List Nat
  | [] => []
  | x :: rest => entry (x :: seen) b :: entriesBeyond (x :: seen) b rest

/-- A row of the table. -/
def rowFor (target b : List Char) : List Nat := entry [] b :: entriesBeyond [] b target

theorem entriesBeyond_nil (seen target : List Char) :
    entriesBeyond seen [] target = List.range' (seen.length + 1) target.length := by
  induction target generalizing seen with
  | nil => rfl
  | cons x rest ih => simp [entriesBeyond, ih, List.range'_succ]

/-- The first row. -/
theorem rowFor_nil (target : List Char) :
    rowFor target [] = List.range (target.length + 1) := by
  rw [rowFor, entriesBeyond_nil, List.range_eq_range', List.range'_succ]
  simp

theorem extendRow_entriesBeyond (y : Char) (seen b rest : List Char) :
    extendRow y (entry seen b) (entry seen (y :: b)) rest (entriesBeyond seen b rest) =
      entriesBeyond seen (y :: b) rest := by
  induction rest generalizing seen with
  | nil => rfl
  | cons x rest ih =>
    simp only [entriesBeyond, extendRow]
    rw [← entry_cons_cons, ih]

/-- Each row follows from the one before. -/
theorem nextRow_rowFor (target b : List Char) (y : Char) :
    nextRow target (rowFor target b) y = rowFor target (y :: b) := by
  have hfirst : entry [] b + 1 = entry [] (y :: b) := by simp
  rw [rowFor, nextRow, hfirst, extendRow_entriesBeyond, rowFor]

theorem foldl_nextRow (target word b : List Char) :
    word.foldl (nextRow target) (rowFor target b) = rowFor target (word.reverse ++ b) := by
  induction word generalizing b with
  | nil => rfl
  | cons y rest ih => rw [List.foldl_cons, nextRow_rowFor, ih, List.reverse_cons, List.append_assoc,
      List.singleton_append]

theorem getLastD_entriesBeyond (seen b target : List Char) :
    (entry seen b :: entriesBeyond seen b target).getLastD 0 = entry (target.reverse ++ seen) b := by
  induction target generalizing seen with
  | nil => rfl
  | cons x rest ih =>
    have h := ih (x :: seen)
    rw [List.reverse_cons, List.append_assoc, List.singleton_append, ← h]
    rfl

/-- The distance is the last number of the last row. -/
theorem distance_eq_entry (target word : List Char) :
    distance target word = entry target.reverse word.reverse := by
  rw [distance, ← rowFor_nil, foldl_nextRow, rowFor, getLastD_entriesBeyond, List.append_nil,
    List.append_nil]

/-! ### Enough edits -/

theorem editsTo_nil_left (b : List Char) : EditsTo b.length [] b := by
  induction b with
  | nil => exact .none _
  | cons y b ih => exact ih.insert y

theorem editsTo_nil_right (a : List Char) : EditsTo a.length a [] := by
  induction a with
  | nil => exact .none _
  | cons x a ih => exact ih.delete x

/-- The number in the table is a number of edits that is enough. -/
theorem editsTo_entry (a b : List Char) : EditsTo (entry a b) a b := by
  induction a generalizing b with
  | nil => simpa using editsTo_nil_left b
  | cons x a iha =>
    induction b with
    | nil => simpa using editsTo_nil_right (x :: a)
    | cons y b ihb =>
      rw [entry_cons_cons]
      refine min_rec' (fun n => EditsTo n (x :: a) (y :: b))
        (min_rec' (fun n => EditsTo n (x :: a) (y :: b)) ?_ ?_) ?_
      · by_cases hxy : x = y
        · subst hxy
          simpa using (iha b).behind x
        · simpa [hxy] using (iha b).replace x y
      · exact ihb.insert y
      · exact (iha (y :: b)).delete x

/-! ### No fewer edits -/

theorem entry_self (a : List Char) : entry a a = 0 := by
  induction a with
  | nil => simp
  | cons x a ih => simp [entry_cons_cons, ih]

/-- One more character in the second word adds one at most. -/
theorem entry_cons_right_le (a : List Char) (y : Char) (b : List Char) :
    entry a (y :: b) ≤ entry a b + 1 := by
  cases a with
  | nil => simp
  | cons x a =>
    rw [entry_cons_cons]
    omega

/-- One more character in the first word adds one at most. -/
theorem entry_cons_left_le (x : Char) (a b : List Char) : entry (x :: a) b ≤ entry a b + 1 := by
  cases b with
  | nil => simp
  | cons y b =>
    rw [entry_cons_cons]
    omega

/-- One more character in the first word takes away one at most. -/
theorem entry_le_entry_cons_left (x : Char) (a b : List Char) :
    entry a b ≤ entry (x :: a) b + 1 := by
  induction b with
  | nil => simp; omega
  | cons y b ih =>
    have hlonger := entry_cons_right_le a y b
    rw [entry_cons_cons]
    omega

/-- Another first character changes one at most. -/
theorem entry_cons_le_entry_cons (x y : Char) (a b : List Char) :
    entry (x :: a) b ≤ entry (y :: a) b + 1 := by
  induction b with
  | nil => simp
  | cons z b ih =>
    rw [entry_cons_cons, entry_cons_cons]
    split <;> split <;> omega

/-- A change of one at most stays so behind another character. -/
theorem entry_cons_le_of_le (hstep : ∀ d, entry a d ≤ entry b d + 1) (x : Char) (c : List Char) :
    entry (x :: a) c ≤ entry (x :: b) c + 1 := by
  induction c with
  | nil => simpa using hstep []
  | cons y c ih =>
    have hshorter := hstep c
    have hlonger := hstep (y :: c)
    rw [entry_cons_cons, entry_cons_cons]
    omega

theorem entry_append_le_of_le (hstep : ∀ d, entry a d ≤ entry b d + 1) (before c : List Char) :
    entry (before ++ a) c ≤ entry (before ++ b) c + 1 := by
  induction before generalizing c with
  | nil => exact hstep c
  | cons x before ih => exact entry_cons_le_of_le ih x c

/-- An edit changes the number for any other word by one at most. -/
theorem entry_le_of_edit (h : Edit a b) (c : List Char) : entry a c ≤ entry b c + 1 := by
  cases h with
  | insert before x after => exact entry_append_le_of_le (entry_le_entry_cons_left x after) before c
  | delete before x after => exact entry_append_le_of_le (entry_cons_left_le x after) before c
  | replace before x y after =>
    exact entry_append_le_of_le (entry_cons_le_entry_cons x y after) before c

/-- No smaller number of edits is enough. -/
theorem entry_le_of_editsTo (h : EditsTo n a b) : entry a b ≤ n := by
  induction h with
  | none a => exact (entry_self a).le
  | @cons n a b c hedit _ ih =>
    have hstep := entry_le_of_edit hedit c
    omega

/-- The distance is the least number of edits that is enough. -/
theorem isLeast_distance (target word : List Char) :
    IsLeast {n | EditsTo n target word} (distance target word) := by
  rw [distance_eq_entry]
  constructor
  · simpa using (editsTo_entry target.reverse word.reverse).reverse
  · intro n hn
    exact entry_le_of_editsTo hn.reverse

end Gullet.Spelling
