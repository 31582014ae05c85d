/-!
# File paths

A path is kept as it was written. Its components are what stands between slashes; repeated slashes and
components that name the current directory do not count, except at the start of a relative path. Two
paths are the same if their components are.
-/

namespace Gullet

/-- A path, as it was written. -/
structure Path where
  /-- The path as text. -/
  text : String
deriving DecidableEq, Repr, Inhabited

/-- A component of a path. -/
inductive Path.Component where
  /-- The slash at the start of an absolute path. -/
  | root
  /-- The current directory, at the start of a relative path. -/
  | current
  /-- The directory above. -/
  | parent
  /-- A name. -/
  | normal (name : String)
deriving DecidableEq, Repr

namespace Path

/-- Whether the path starts at the root. -/
def isAbsolute (p : Path) : Bool := p.text.toList.head? = some '/'

/-- What a part between slashes means, after the first one. -/
def componentOfPart? (part : String) : Option Component :=
  if part = "" || part = "." then none
  else if part = ".." then some .parent
  else some (.normal part)

/-- The components of the path. -/
def components (p : Path) : List Component :=
  let parts := p.text.splitOn "/"
  let start :=
    if p.isAbsolute then [.root]
    else if parts.head? = some "." then [.current]
    else []
  start ++ parts.filterMap componentOfPart?

/-- The names in the path. -/
def names (p : Path) : List String :=
  p.components.filterMap fun
    | .normal name => some name
    | _ => none

/-- The name at the end of the path. -/
def fileName? (p : Path) : Option String :=
  match p.components.getLast? with
  | some (.normal name) => some name
  | _ => none

/-- What follows the last dot of a file name. A dot at its start does not count. -/
def extension? (p : Path) : Option String := do
  let name ← p.fileName?
  let chars := name.toList.reverse
  let after := (chars.takeWhile (· ≠ '.')).reverse
  match chars.dropWhile (· ≠ '.') with
  | _ :: _ :: _ => some (String.ofList after)
  | _ => none

/-- The characters of a path, last first, from the end of its last name. -/
def fromLastName : List Char → List Char
  | '/' :: rest => fromLastName rest
  | '.' :: '/' :: rest => fromLastName rest
  | chars => chars

/-- The path with an extension added, if it ends in a name that has none. -/
def withDefaultExtension (p : Path) (extension : String) : Path :=
  match p.fileName?, p.extension? with
  | some _, none => ⟨String.ofList (fromLastName p.text.toList.reverse).reverse ++ "." ++ extension⟩
  | _, _ => p

/-- The path seen from a directory. An absolute path stays as it is. -/
def relativeTo (p : Path) (directory : Path) : Path :=
  if p.isAbsolute then p
  else
    let separator :=
      match directory.text.toList.getLast? with
      | none => ""
      | some c => if c = '/' then "" else "/"
    ⟨directory.text ++ separator ++ p.text⟩

/-- Whether two paths lead to the same place by their components. -/
def same (p q : Path) : Bool := p.components = q.components

end Path

end Gullet
