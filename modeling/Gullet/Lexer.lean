import Gullet.CatCode.Table
import Gullet.Source

/-!
# The tokeniser

The lexer turns the text of one source into tokens. Categories are looked up as the characters are
read, so a change of category affects everything read after it and nothing before.

Blanks follow three states: at the start of a line they are skipped and the end of the line is a
paragraph break; inside a line a run of blanks, or the end of the line, is one space; after a space or a
control word blanks and the end of the line are skipped.

A character of category superscript that stands twice introduces a code: two lower-case hexadecimal
digits give the character with that code, and any other ASCII character the one 64 places away.
-/

namespace Gullet

/-- Where the lexer stands in its line, as far as blanks are concerned. -/
inductive LineState where
  | newLine
  | midLine
  | skipBlanks
deriving DecidableEq, Repr

/-- Why no token could be read. -/
inductive LexError where
  /-- A character of category invalid. -/
  | invalidCharacter (c : Char) (key : SourceKey)
  /-- The source ends after an escape character. -/
  | emptyControlSequence (key : SourceKey)
  /-- The text of a comment was asked for that ends before it begins. -/
  | reversedComment
deriving DecidableEq, Repr

/-- A comment, with the key of the character that starts it. -/
structure Comment where
  /-- The text after the comment character. -/
  text : String
  /-- Where the comment starts. -/
  key : SourceKey := none
deriving DecidableEq, Repr

/-- A tokeniser for one source. -/
structure Lexer where
  /-- What has not been read. -/
  rest : List Char
  /-- The number of bytes that have been read. -/
  offset : Nat
  /-- The number of bytes of the whole source. -/
  size : Nat
  /-- The keys of the source. -/
  keys : KeyRange
  /-- Where the lexer stands in its line. -/
  state : LineState := .newLine
  /-- Whether the text of comments is kept. -/
  retain : Bool := false
  /-- The comments kept, latest first. -/
  comments : List Comment := []
deriving Repr

/-- The value of a lower-case hexadecimal digit. -/
def lowerHexDigit? (c : Char) : Option Nat :=
  if '0' ≤ c && c ≤ '9' then some (c.toNat - '0'.toNat)
  else if 'a' ≤ c && c ≤ 'f' then some (c.toNat - 'a'.toNat + 10)
  else none

/-- A character that has been read, with what follows it and the number of bytes it took. -/
structure ReadChar where
  /-- The character. -/
  char : Char
  /-- What follows it. -/
  rest : List Char
  /-- The number of bytes read. -/
  width : Nat

/-- The code written after a doubled superscript character: the decoded character, what follows the
code, and its width. -/
def decodePair? : List Char → Option ReadChar
  | [] => none
  | third :: rest =>
    let short : Option ReadChar :=
      if third.toNat < 128 then
        let n := if third.toNat < 64 then third.toNat + 64 else third.toNat - 64
        some ⟨Char.ofNat n, rest, third.utf8Size⟩
      else none
    match rest with
    | [] => short
    | fourth :: rest' =>
      match lowerHexDigit? third, lowerHexDigit? fourth with
      | some high, some low =>
        some ⟨Char.ofNat (high * 16 + low), rest', third.utf8Size + fourth.utf8Size⟩
      | _, _ => short

/-- Reads one character, which may be written by its code. -/
def readChar? (code : Char → CatCode) : List Char → Option ReadChar
  | [] => none
  | c :: rest =>
    let plain : ReadChar := ⟨c, rest, c.utf8Size⟩
    if code c ≠ .superscript then some plain
    else
      match rest with
      | [] => some plain
      | second :: rest' =>
        if second ≠ c then some plain
        else
          match decodePair? rest' with
          | none => some plain
          | some r => some { r with width := 2 * c.utf8Size + r.width }

/-- A code takes at least one character. -/
theorem length_decodePair? {chars : List Char} {r : ReadChar} (h : decodePair? chars = some r) :
    r.rest.length < chars.length := by
  unfold decodePair? at h
  grind

/-- Reading a character takes at least one character. -/
theorem length_readChar? {code : Char → CatCode} {chars : List Char} {r : ReadChar}
    (h : readChar? code chars = some r) : r.rest.length < chars.length := by
  unfold readChar? at h
  have := @length_decodePair?
  grind

/-- What follows the end of a line at the start of a text, and the width of that end. A carriage return
followed by a line feed is one end. -/
def afterLineEnd : List Char → List Char × Nat
  | '\r' :: '\n' :: after => (after, 2)
  | _ :: after => (after, 1)
  | [] => ([], 0)

/-- Whether a character ends a line. -/
def isLineEnd (c : Char) : Bool := c = '\r' || c = '\n'

/-- What follows the end of the current line, and the number of bytes up to there.

The skip was triggered by a character that starts at `start`, and `rest` follows it after `width` bytes.
If the text at `start` is itself the end of a line, only that is skipped; otherwise everything up to and
with the next end of a line. -/
def skipLine (start rest : List Char) (width : Nat) : List Char × Nat :=
  if start.head?.any isLineEnd then afterLineEnd start
  else
    let skipped := rest.takeWhile (!isLineEnd ·)
    let (after, n) := afterLineEnd (rest.dropWhile (!isLineEnd ·))
    (after, width + byteSize skipped + n)

theorem length_afterLineEnd (chars : List Char) :
    (afterLineEnd chars).1.length ≤ chars.length - 1 := by
  unfold afterLineEnd
  split <;> simp

/-- Skipping a line takes at least one character. -/
theorem length_skipLine {start rest : List Char} {width : Nat} (h : rest.length < start.length) :
    (skipLine start rest width).1.length < start.length := by
  unfold skipLine
  split
  · have := length_afterLineEnd start
    omega
  · have h₁ := length_afterLineEnd (rest.dropWhile (!isLineEnd ·))
    have h₂ := (List.dropWhile_sublist (!isLineEnd ·) (l := rest)).length_le
    show (afterLineEnd (rest.dropWhile (!isLineEnd ·))).1.length < start.length
    omega

/-- A letter of a control word after the first, and the letters that follow it. -/
def takeLetters (code : Char → CatCode) (chars : List Char) : List Char × List Char × Nat :=
  match h : readChar? code chars with
  | none => ([], chars, 0)
  | some r =>
    if code r.char = .letter then
      have : r.rest.length < chars.length := length_readChar? h
      let (letters, rest, width) := takeLetters code r.rest
      (r.char :: letters, rest, r.width + width)
    else ([], chars, 0)
termination_by chars.length

namespace Lexer

/-- A lexer at the start of a source. -/
def start (content : List Char) (keys : KeyRange) (retain : Bool) : Lexer :=
  { rest := content, offset := 0, size := byteSize content, keys, retain }

/-- Whether all of the source has been read. -/
def isExhausted (lx : Lexer) : Bool := lx.rest.isEmpty

/-- The number of bytes still to be read. -/
def remaining (lx : Lexer) : Nat := lx.size - lx.offset

/-- The lexer with the rest of its source discarded. -/
def discardRest (lx : Lexer) : Lexer := { lx with rest := [], offset := lx.size }

/-- The comments kept so far, first to last, and the lexer without them. -/
def takeComments (lx : Lexer) : List Comment × Lexer :=
  (lx.comments.reverse, { lx with comments := [] })

/-- The lexer after `width` bytes, before `rest`. -/
def moveTo (lx : Lexer) (rest : List Char) (width : Nat) : Lexer :=
  { lx with rest, offset := lx.offset + width }

/-- The control sequence after an escape character that stands at `key`. A name is a run of letters or
one character of another category. -/
def controlSequence (lx : Lexer) (code : Char → CatCode) (key : SourceKey) :
    Except LexError Token × Lexer :=
  match readChar? code lx.rest with
  | none => (.error (.emptyControlSequence key), lx)
  | some first =>
    match code first.char with
    | .letter =>
      let (letters, rest, width) := takeLetters code first.rest
      (.ok (.controlSequence (String.ofList (first.char :: letters)) key),
        { lx.moveTo rest (first.width + width) with state := .skipBlanks })
    | .space =>
      (.ok (.controlSequence first.char.toString key),
        { lx.moveTo first.rest first.width with state := .skipBlanks })
    | _ =>
      (.ok (.controlSequence first.char.toString key),
        { lx.moveTo first.rest first.width with state := .midLine })

/-- The text of a comment: what follows the comment character, which starts at `start`, in its line. -/
def commentText (start rest : List Char) : String :=
  if start.head?.any isLineEnd then "" else String.ofList (rest.takeWhile (!isLineEnd ·))

/-- What reading one character leads to. -/
inductive Outcome where
  /-- A token. -/
  | token (t : Token)
  /-- Nothing; reading goes on. -/
  | skip
  /-- A failure. -/
  | fail (e : LexError)

/-- Handles one character `r` that has been read at the lexer's place. -/
def step (lx : Lexer) (code : Char → CatCode) (r : ReadChar) : Outcome × Lexer :=
  let key := lx.keys.keyAt lx.offset
  let next := lx.moveTo r.rest r.width
  match code r.char with
  | .escape =>
    match next.controlSequence code key with
    | (.ok t, lx') => (.token t, lx')
    | (.error e, lx') => (.fail e, lx')
  | .space =>
    if lx.state = .midLine then
      (.token (.char .space ' ' key), { next with state := .skipBlanks })
    else (.skip, next)
  | .endOfLine =>
    let (after, width) := skipLine lx.rest r.rest r.width
    let next := { lx.moveTo after width with state := .newLine }
    match lx.state with
    | .newLine => (.token ⟨.par, key⟩, next)
    | .midLine => (.token (.char .space ' ' key), next)
    | .skipBlanks => (.skip, next)
  | .comment =>
    let (after, width) := skipLine lx.rest r.rest r.width
    let next := { lx.moveTo after width with state := .newLine }
    if lx.retain then
      -- The line may have ended before the code that the comment character is written by.
      if width < r.width then (.fail .reversedComment, next)
      else (.skip, { next with comments := ⟨commentText lx.rest r.rest, key⟩ :: next.comments })
    else (.skip, next)
  | .ignored => (.skip, next)
  | .invalid => (.fail (.invalidCharacter r.char key), next)
  | category =>
    let next := { next with state := .midLine }
    match TokenValue.ofChar? r.char category with
    | some value => (.token ⟨value, key⟩, next)
    | none => (.skip, next)

/-- Handling a character leaves less to be read. -/
theorem length_step {lx : Lexer} {code : Char → CatCode} {r : ReadChar} {lx' : Lexer}
    (hr : readChar? code lx.rest = some r) (h : lx.step code r = (.skip, lx')) :
    lx'.rest.length < lx.rest.length := by
  have hlt := length_readChar? hr
  have hskip : (skipLine lx.rest r.rest r.width).1.length < lx.rest.length := length_skipLine hlt
  unfold step at h
  simp only [moveTo] at h
  split at h <;> grind

/-- Reads the next token. The answer is `none` at the end of the source. -/
def next (lx : Lexer) (code : Char → CatCode) : Except LexError (Option Token) × Lexer :=
  match hr : readChar? code lx.rest with
  | none => (.ok none, lx)
  | some r =>
    match hs : lx.step code r with
    | (.token t, lx') => (.ok (some t), lx')
    | (.fail e, lx') => (.error e, lx')
    | (.skip, lx') =>
      have : lx'.rest.length < lx.rest.length := length_step hr hs
      next lx' code
termination_by lx.rest.length

end Lexer

end Gullet
