/-!
# Spelling suggestions

The words of a dictionary that are closest to a given word. The distance between two words is the
number of single characters that have to be inserted, deleted or replaced to turn one into the other.
It is computed row by row: the row for a word `b` holds the distances between `b` and all beginnings of
the target word.
-/

namespace Gullet.Spelling

/-- A word of the dictionary with its distance from the word looked up. -/
structure CloseWord where
  /-- The word of the dictionary. -/
  word : String
  /-- Its distance. -/
  distance : Nat
deriving DecidableEq, Repr

/-- Words further away than this are never suggested. -/
def greatestDistance : Nat := 3

/-- The rest of a new row of distances. `diagonal` and the list are entries of the old row, and `left` is
the entry of the new row that was found last. -/
def extendRow (b : Char) : Nat → Nat → List Char → List Nat → List Nat
  | diagonal, left, a :: as, above :: row =>
    let entry := min (min (diagonal + if a = b then 0 else 1) (above + 1)) (left + 1)
    entry :: extendRow b above entry as row
  | _, _, _, _ => []

/-- The row for a word with one more character at its end. -/
def nextRow (target : List Char) (row : List Nat) (b : Char) : List Nat :=
  match row with
  | [] => []
  | first :: rest => (first + 1) :: extendRow b first (first + 1) target rest

/-- The distance between two words. -/
def distance (target word : List Char) : Nat :=
  (word.foldl (nextRow target) (List.range (target.length + 1))).getLastD 0

/-- Nearer words come first, and words at the same distance in alphabetical order. -/
def CloseWord.before (a b : CloseWord) : Bool :=
  a.distance < b.distance || (a.distance = b.distance && a.word ≤ b.word)

/-- The words of the dictionary that are close to `word`: within the greatest distance, and nearer to
`word` than the empty word is. -/
def closeWords (dictionary : List String) (word : String) : List CloseWord :=
  let target := word.toList
  let bound := min greatestDistance (target.length - 1)
  let found := dictionary.filterMap fun candidate =>
    let d := distance target candidate.toList
    if d ≤ bound then some ⟨candidate, d⟩ else none
  found.mergeSort CloseWord.before

end Gullet.Spelling
