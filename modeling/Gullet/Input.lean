import Gullet.Object

/-!
# The input

The input is a stack of sources. At the bottom is a source that holds tokens only. Above it stand files,
regions, in which a command reads a token list of its own, and captures, which collect the result of one
expansion. Every source has pending tokens, which are read before anything else in it: the results of
expansions, and tokens that were put back.

Reading goes down the stack when a source has nothing more to give, but never past a region. A file that
has been read to its end is dropped once it is on top.
-/

namespace Gullet

/-- The tokens that are pending in a source, next one first, with their number. -/
structure Pending where
  /-- The tokens. -/
  tokens : List Token := []
  /-- Their number. -/
  size : Nat := 0
  /-- The number is that of the tokens. -/
  size_eq : size = tokens.length := by rfl

namespace Pending

/-- No tokens. -/
def empty : Pending := {}

instance : Inhabited Pending := ⟨empty⟩

/-- The given tokens. -/
def ofList (ts : List Token) : Pending := ⟨ts, ts.length, rfl⟩

/-- One more token in front. -/
def push (p : Pending) (t : Token) : Pending := ⟨t :: p.tokens, p.size + 1, by simp [p.size_eq]⟩

/-- More tokens in front. -/
def pushAll (p : Pending) (ts : List Token) : Pending :=
  ⟨ts ++ p.tokens, ts.length + p.size, by simp [p.size_eq]⟩

/-- The first token, and the others. -/
def pop? (p : Pending) : Option (Token × Pending) :=
  match h : p.tokens with
  | [] => none
  | t :: rest => some (t, ⟨rest, p.size - 1, by simp [p.size_eq, h]⟩)

/-- Pending tokens are determined by their list. -/
theorem ext_tokens {p q : Pending} (h : p.tokens = q.tokens) : p = q := by
  obtain ⟨ts, n, hn⟩ := p
  obtain ⟨ts', n', hn'⟩ := q
  simp only at h
  subst h hn hn'
  rfl

@[simp] theorem pop?_push (p : Pending) (t : Token) : (p.push t).pop? = some (t, p) := by
  simp [pop?, push]

theorem pop?_eq_none_iff (p : Pending) : p.pop? = none ↔ p.tokens = [] := by
  unfold pop?
  split <;> simp_all

theorem tokens_of_pop? {p q : Pending} {t : Token} (h : p.pop? = some (t, q)) :
    p.tokens = t :: q.tokens := by
  unfold pop? at h
  split at h <;> simp_all
  obtain ⟨rfl, rfl⟩ := h
  rfl

@[simp] theorem tokens_pushAll (p : Pending) (ts : List Token) :
    (p.pushAll ts).tokens = ts ++ p.tokens := rfl

@[simp] theorem tokens_push (p : Pending) (t : Token) : (p.push t).tokens = t :: p.tokens := rfl

end Pending

/-- What a source is, besides its pending tokens. -/
inductive SourceKind where
  /-- A file, or a text that is read like one. -/
  | file (lexer : Lexer)
  /-- A token list that a command reads by itself. -/
  | region (mode : ListMode)
  /-- The bottom of the stack. -/
  | bottom
  /-- Collects the result of one expansion; reading passes through it. -/
  | capture

/-- A source of the input. -/
structure InputSource where
  /-- The tokens that are read first. -/
  pending : Pending := .empty
  /-- What the source is. -/
  kind : SourceKind

namespace InputSource

/-- A list as a region. -/
def ofList (l : TokenList) : InputSource := { pending := .ofList l.tokens, kind := .region l.mode }

/-- Whether the source is a file. -/
def isFile (s : InputSource) : Bool :=
  match s.kind with
  | .file _ => true
  | _ => false

/-- An upper bound for the number of tokens that the source still gives. -/
def size (s : InputSource) : Nat :=
  match s.kind with
  | .file lexer => s.pending.size + lexer.remaining
  | _ => s.pending.size

end InputSource

/-- The stack of sources, topmost first. -/
structure Input where
  /-- The sources. -/
  sources : List InputSource := [{ kind := .bottom }]

/-- What reading a token gives: the token, if there is one, or a failure of the tokeniser; the input
afterwards; and the comments that were passed. -/
structure Input.Reading where
  result : Except LexError (Option Token)
  sources : List InputSource
  comments : List Comment := []

namespace Input

instance : Inhabited Input := ⟨{}⟩

/-- Whether expansion is possible: not while the tokens of a list are read as they are. -/
def expansionEnabled (i : Input) : Bool :=
  match i.sources.find? (fun s =>
      match s.kind with
      | .file _ | .region _ => true
      | .bottom | .capture => false) with
  | some { kind := .region mode, .. } => mode = .stack
  | _ => true

/-- Reads the next token from the sources. `onTop` says whether nothing stands above them, and `report`
whether the comments that were passed are taken from the lexers. -/
def read (code : Char → CatCode) (report : Bool) : Bool → List InputSource → Input.Reading
  | _, [] => { result := .ok none, sources := [] }
  | onTop, s :: below =>
    match s.pending.pop? with
    | some (t, pending) => { result := .ok (some t), sources := { s with pending } :: below }
    | none =>
      match s.kind with
      | .region _ => { result := .ok none, sources := s :: below }
      | .bottom | .capture =>
        let r := read code report false below
        { r with sources := s :: r.sources }
      | .file lexer =>
        let (result, lexer) := lexer.next code
        let (comments, lexer) := if report then lexer.takeComments else ([], lexer)
        let s := { s with kind := .file lexer }
        match result with
        | .ok (some t) => { result := .ok (some t), sources := s :: below, comments }
        | .error e => { result := .error e, sources := s :: below, comments }
        | .ok none =>
          if onTop && !below.isEmpty then
            let r := read code report true below
            { r with comments := comments ++ r.comments }
          else
            let r := read code report false below
            { r with sources := s :: r.sources, comments := comments ++ r.comments }

/-- Applies a function to the topmost source. -/
def mapTop (i : Input) (f : InputSource → InputSource) : Input :=
  match i.sources with
  | [] => ⟨[f { kind := .bottom }]⟩
  | s :: below => ⟨f s :: below⟩

/-- Puts a token in front of the input. -/
def push (i : Input) (t : Token) : Input := i.mapTop fun s => { s with pending := s.pending.push t }

/-- Puts tokens in front of the input. -/
def pushAll (i : Input) (ts : List Token) : Input :=
  i.mapTop fun s => { s with pending := s.pending.pushAll ts }

/-- Opens a source on top. -/
def enter (i : Input) (s : InputSource) : Input := ⟨s :: i.sources⟩

/-- The number of open files. -/
def fileCount (i : Input) : Nat := i.sources.countP InputSource.isFile

/-- Discards the rest of the topmost file among the sources. -/
def endTopFile : List InputSource → List InputSource
  | [] => []
  | s :: below =>
    match s.kind with
    | .file lexer => { s with kind := .file lexer.discardRest } :: below
    | _ => s :: endTopFile below

/-- An upper bound for the number of tokens that the input still gives without expansion. -/
def size (i : Input) : Nat := i.sources.foldr (fun s n => s.size + n) 0

theorem push_eq_pushAll (i : Input) (t : Token) : i.push t = i.pushAll [t] := by
  unfold push pushAll
  congr 1
  funext s
  rw [Pending.ext_tokens (p := s.pending.push t) (q := s.pending.pushAll [t]) rfl]

theorem pushAll_append (i : Input) (ts us : List Token) :
    i.pushAll (ts ++ us) = (i.pushAll us).pushAll ts := by
  have hpending (p : Pending) : p.pushAll (ts ++ us) = (p.pushAll us).pushAll ts :=
    Pending.ext_tokens (List.append_assoc ts us p.tokens)
  unfold pushAll mapTop
  cases i.sources with
  | nil =>
    dsimp only
    rw [hpending]
  | cons s below =>
    dsimp only
    rw [hpending]

end Input

end Gullet
