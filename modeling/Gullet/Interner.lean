import Std.Data.TreeMap

/-!
# Interning texts

An interner numbers texts in the order in which it first sees them, starting at one. The texts stand one
after the other in one buffer, and the place where each of them ends is kept, so a text is found by its
key in two look-ups. A key is found by its text through buckets of keys with the same hash, so any hash
function will do.
-/

namespace Gullet

/-- The texts seen so far, and the keys of the texts with a given hash. -/
structure Interner (hash : String → UInt64) where
  /-- The texts in the order in which they were first seen, with nothing between them. -/
  buffer : String := ""
  /-- For each text, the number of bytes of the buffer up to the end of the text. -/
  ends : Array Nat := #[]
  /-- The keys of the texts with each hash, in increasing order. -/
  buckets : Std.TreeMap UInt64 (List Nat) := ∅

namespace Interner

variable {hash : String → UInt64}

/-- Keys are smaller than this number. -/
def keyLimit : Nat := 4294967296

/-- The key of the text at an index, unless the keys have run out. -/
def keyFor? (index : Nat) : Option Nat :=
  if index + 1 < keyLimit then some (index + 1) else none

/-- The interner that has seen nothing. -/
def empty : Interner hash := {}

/-- The text with the given key. -/
def resolve? (i : Interner hash) : Nat → Option String
  | 0 => none
  | index + 1 =>
    if h : index < i.ends.size then
      let start := if index = 0 then 0 else i.ends[index - 1]
      some (String.Pos.Raw.extract i.buffer ⟨start⟩ ⟨i.ends[index]⟩)
    else none

/-- The key of a text that has been seen. -/
def key? (i : Interner hash) (s : String) : Option Nat :=
  (i.buckets.getD (hash s) []).find? fun key => i.resolve? key = some s

/-- The key of a text, which is new if the text has not been seen. Fails if there is no key for a new
text. -/
def intern? (i : Interner hash) (s : String) : Option (Nat × Interner hash) :=
  match i.key? s with
  | some key => some (key, i)
  | none =>
    match keyFor? i.ends.size with
    | none => none
    | some key =>
      let buffer := i.buffer ++ s
      some (key,
        { buffer
          ends := i.ends.push buffer.utf8ByteSize
          buckets := i.buckets.insert (hash s) (i.buckets.getD (hash s) [] ++ [key]) })

/-- The number of texts seen. -/
def size (i : Interner hash) : Nat := i.ends.size

/-- Whether nothing has been seen. -/
def isEmpty (i : Interner hash) : Bool := i.ends.isEmpty

end Interner

end Gullet
