import Gullet.Dimen
import Gullet.Lexer
import Gullet.Token.Writer

/-!
# Token lists, groups and objects

A token list is a sequence of tokens from which a command can take its arguments. A group is a region
of the input with its own scope. An object is anything the interpreter hands on: a token, a group, a
list, a number, a dimension, or a comment that is kept although it has no effect.
-/

namespace Gullet

/-- How the tokens of a list are read. -/
inductive ListMode where
  /-- Expandable commands are expanded, as in the main input. -/
  | stack
  /-- Tokens are returned as they are. -/
  | list
deriving DecidableEq, Repr, Inhabited

/-- A sequence of tokens. The first is the next one to be taken. -/
structure TokenList where
  /-- The tokens. -/
  tokens : List Token := []
  /-- How they are read. -/
  mode : ListMode := .stack
deriving Repr, Inhabited

namespace TokenList

/-- Takes the first token. -/
def pop (l : TokenList) : Option Token × TokenList :=
  match l.tokens with
  | [] => (none, l)
  | t :: rest => (some t, { l with tokens := rest })

/-- Puts a token in front. -/
def push (l : TokenList) (t : Token) : TokenList := { l with tokens := t :: l.tokens }

/-- Puts tokens in front, in their order. -/
def pushAll (l : TokenList) (ts : List Token) : TokenList := { l with tokens := ts ++ l.tokens }

/-- The number of tokens. -/
def length (l : TokenList) : Nat := l.tokens.length

@[simp] theorem pop_push (l : TokenList) (t : Token) : (l.push t).pop = (some t, l) := rfl

end TokenList

/-- The kinds of groups. -/
inductive GroupKind where
  /-- A group between braces. -/
  | brace
  /-- A group between `\begingroup` and `\endgroup`. -/
  | semisimple
  /-- A formula. -/
  | math (display : Bool)
  /-- An environment. -/
  | environment (name : String)
deriving DecidableEq, Repr

/-- How a group of the kind is closed. -/
def GroupKind.closer : GroupKind → String
  | brace => "\x7d"
  | semisimple => "\\endgroup"
  | math false => "$"
  | math true => "$$"
  | environment name => "\\end\x7b" ++ name ++ "\x7d"

/-- A group. -/
structure Group where
  /-- Its kind. -/
  kind : GroupKind
  /-- The token that opened it. -/
  opener : Token
  /-- The token that closed it, once it is closed. -/
  closer : Option Token := none
  /-- What it holds. -/
  content : List Token := []
deriving Repr

/-- Whether the group is a formula. -/
def Group.isMath (g : Group) : Bool :=
  match g.kind with
  | .math _ => true
  | _ => false

/-- Anything the interpreter hands on. -/
inductive Object where
  | token (t : Token)
  | group (g : Group)
  | list (l : TokenList)
  | number (n : Int)
  | dimension (d : Dimen)
  | comment (c : Comment)
deriving Repr

namespace Object

/-- The tokens that stand for the object. Numbers and dimensions become the tokens of their text, with
the given key. -/
def tokens (key : SourceKey) : Object → List Token
  | token t => [t]
  | group g => g.opener :: (g.content ++ g.closer.toList)
  | list l => l.tokens
  | number n => Token.ofText (toString n) key
  | dimension d => Token.ofText d.text key
  | comment _ => []

/-- The object as text. -/
def text : Object → String
  | comment c => c.text
  | o => Token.write (o.tokens none)

end Object

end Gullet
