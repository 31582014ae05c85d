import Gullet.Text.Blank
import Gullet.Text.Path
import Gullet.Token

/-!
# Sources and the places of tokens

Every source that is read is registered in an atlas, which reserves one key for each byte of it and one
for its end. A token carries the key of the byte where it starts, and the atlas leads from a key back to
the source, the line and the character.

Lines are divided by line feeds. A place is the number of its line, counted from one, and the number of
characters before it in that line.
-/

namespace Gullet

/-- Where a source came from. -/
inductive Origin where
  /-- A file. -/
  | file (path : Path)
  /-- A text with a name. -/
  | text (name : String)
deriving DecidableEq, Repr

/-- The origin as it is shown in reports. -/
def Origin.shown : Origin → String
  | file path => path.text
  | text name => "<" ++ name ++ ">"

/-- The place of a token, with the line it stands in. -/
structure Trace where
  /-- The source. -/
  origin : Origin
  /-- The line, without what ends it. -/
  line : String
  /-- The number of the line, from one. -/
  lineNumber : Nat
  /-- The number of characters before the token in its line. -/
  index : Nat
  /-- The token as it stands in the source. -/
  value : String
deriving DecidableEq, Repr

/-- The keys reserved for one source: from `first` up to, and without, `limit`. -/
structure KeyRange where
  /-- The key of the first byte. -/
  first : Nat
  /-- The first key that is no longer reserved. -/
  limit : Nat
deriving DecidableEq, Repr

namespace KeyRange

/-- No keys at all. -/
def empty : KeyRange := ⟨0, 0⟩

/-- The key of the byte at an offset, absent beyond the end. -/
def keyAt (r : KeyRange) (offset : Nat) : SourceKey :=
  if r.first + offset < r.limit then some (r.first + offset) else none

end KeyRange

/-- The number of bytes of a text. -/
def byteSize (chars : List Char) : Nat := chars.foldr (fun c n => c.utf8Size + n) 0

@[simp] theorem byteSize_nil : byteSize [] = 0 := rfl

@[simp] theorem byteSize_cons (c : Char) (rest : List Char) :
    byteSize (c :: rest) = c.utf8Size + byteSize rest := rfl

@[simp] theorem byteSize_append (before after : List Char) :
    byteSize (before ++ after) = byteSize before + byteSize after := by
  induction before with
  | nil => simp
  | cons c rest ih => simp [ih, Nat.add_assoc]

/-- A registered source. -/
structure RegisteredSource where
  /-- The key of its first byte. -/
  first : Nat
  /-- Where it came from. -/
  origin : Origin
  /-- Its text. -/
  content : List Char
  /-- The number of bytes of its text. -/
  size : Nat
deriving Repr

/-- The registered sources, the latest first. -/
structure Atlas where
  /-- The sources. -/
  sources : List RegisteredSource := []
  /-- The first key that is not reserved. -/
  nextKey : Nat := 0
deriving Repr, Inhabited

/-- The characters that end at or before a byte offset, and the remaining ones. An offset inside a
character counts as the start of that character. -/
def splitAtByte : Nat → List Char → List Char × List Char
  | _, [] => ([], [])
  | offset, c :: rest =>
    if c.utf8Size ≤ offset then
      let (before, after) := splitAtByte (offset - c.utf8Size) rest
      (c :: before, after)
    else ([], c :: rest)

theorem splitAtByte_append (offset : Nat) (chars : List Char) :
    (splitAtByte offset chars).1 ++ (splitAtByte offset chars).2 = chars := by
  fun_induction splitAtByte offset chars with
  | case1 => rfl
  | case2 offset c rest h before after heq ih => rw [heq] at ih; simpa using ih
  | case3 => rfl

/-- The part of a text after its last line feed. -/
def lastLine (chars : List Char) : List Char := (chars.reverse.takeWhile (· ≠ '\n')).reverse

/-- The place between two parts of a source. -/
def Trace.between (origin : Origin) (before after : List Char) (value : String) : Trace :=
  let start := lastLine before
  { origin
    line := String.ofList (Text.dropEndWhile (· = '\r') (start ++ after.takeWhile (· ≠ '\n')))
    lineNumber := before.count '\n' + 1
    index := start.length
    value }

/-- The place of a token that comes from no source. -/
def Trace.unknown (line value : String) : Trace :=
  { origin := .text "unknown", line, lineNumber := 0, index := 0, value }

namespace Atlas

/-- Keys are smaller than this number. -/
def keyLimit : Nat := 4294967295

/-- Registers a source. When the keys run out the source has none, and its tokens cannot be traced. -/
def register (a : Atlas) (origin : Origin) (content : List Char) : KeyRange × Atlas :=
  let size := byteSize content
  let limit := a.nextKey + (size + 1)
  if limit < keyLimit then
    (⟨a.nextKey, limit⟩,
      { sources := ⟨a.nextKey, origin, content, size⟩ :: a.sources, nextKey := limit })
  else (KeyRange.empty, a)

/-- The registered source that a key belongs to, with the offset of the key in it. -/
def find? (a : Atlas) (key : Nat) : Option (RegisteredSource × Nat) :=
  match a.sources.find? (fun s => s.first ≤ key) with
  | none => none
  | some s => if key - s.first ≤ s.size then some (s, key - s.first) else none

/-- The place of a token. -/
def trace (a : Atlas) (t : Token) : Trace :=
  let value := t.value.spelling
  match t.key.bind a.find? with
  | some (s, offset) =>
    let (before, after) := splitAtByte offset s.content
    .between s.origin before after value
  | none => .unknown value value

/-- The place just after the last line of the source that was registered last. -/
def traceEnd (a : Atlas) : Trace :=
  match a.sources with
  | [] => .unknown "" " "
  | s :: _ =>
    let before := Text.dropEndWhile (· = '\n') s.content
    .between s.origin before (s.content.drop before.length) " "

end Atlas

end Gullet
