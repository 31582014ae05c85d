import Gullet.Text.Path

/-!
# Files

The interpreter reads files by asking for the text at a path. The answer is the text or the reason why
there is none.
-/

namespace Gullet

/-- Gives the text of the file at a path, or says why it cannot be read. -/
abbrev FileSystem := Path → Except String String

namespace FileSystem

/-- The text recorded for a path, which is found by its components. The last record counts. -/
def lookup? (entries : List (Path × String)) (path : Path) : Option String :=
  (entries.reverse.find? fun entry => entry.1.same path).map Prod.snd

/-- The given files, with paths relative to a directory, and no others. -/
def inMemory (directory : Path) (files : List (String × String)) : FileSystem :=
  let entries := files.map fun (name, content) => ((⟨name⟩ : Path).relativeTo directory, content)
  fun path =>
    match lookup? entries path with
    | some content => .ok content
    | none => .error (path.text ++ " not found")

/-- Why a path leads to no text. -/
inductive PathFault where
  /-- The path contains the null character. -/
  | nullCharacter
  /-- The path or a name in it is too long. -/
  | tooLong
  /-- There is nothing at the path. -/
  | absent
  /-- Something other than a directory has more of the path after it. -/
  | noDirectory
  /-- The path leads to a directory. -/
  | directory
deriving DecidableEq, Repr

/-- A fault in words. -/
def PathFault.text : PathFault → String
  | nullCharacter => "file name contained an unexpected NUL byte"
  | tooLong => "File name too long (os error 36)"
  | absent => "No such file or directory (os error 2)"
  | noDirectory => "Not a directory (os error 20)"
  | directory => "Is a directory (os error 21)"

/-- The greatest number of bytes in a name. -/
def maxNameSize : Nat := 255

/-- The greatest number of bytes in a path. -/
def maxPathSize : Nat := 4095

/-- A directory and the files in it and below. Everything is given by the names that lead to it from the
root. -/
structure Tree where
  /-- The directory from which relative paths lead. -/
  here : List String
  /-- The files with their texts. -/
  files : List (List String × String)

namespace Tree

/-- The text of the file at a place. -/
def file? (t : Tree) (place : List String) : Option String :=
  (t.files.find? fun entry => entry.1 = place).map Prod.snd

/-- Whether there is something at a place. -/
def hasPlace (t : Tree) (place : List String) : Bool :=
  place.isPrefixOf t.here || t.files.any fun entry => place.isPrefixOf entry.1

/-- Follows the parts of a path between its slashes. An empty part and a single dot stay where they are,
but only in a directory. -/
def follow (t : Tree) : (place : List String) → (parts : List String) → Except PathFault (List String)
  | place, [] => return place
  | place, part :: rest => do
    if (t.file? place).isSome then throw .noDirectory
    else if part = "" || part = "." then follow t place rest
    else if part = ".." then follow t place.dropLast rest
    else if maxNameSize < part.utf8ByteSize then throw .tooLong
    else if t.hasPlace (place ++ [part]) then follow t (place ++ [part]) rest
    else throw .absent

/-- The text at a path. -/
def read (t : Tree) (path : Path) : Except PathFault String := do
  if path.text.toList.contains '\x00' then throw .nullCharacter
  else if path.text = "" then throw .absent
  else if maxPathSize < path.text.utf8ByteSize then throw .tooLong
  else
    let place ← t.follow (if path.isAbsolute then [] else t.here) (path.text.splitOn "/")
    match t.file? place with
    | some content => return content
    | none => throw .directory

end Tree

/-- The directory with the given files, whose paths are relative to it. -/
def directory (here : Path) (files : List (String × String)) : FileSystem :=
  let tree : Tree :=
    { here := here.names
      files := files.map fun (name, content) =>
        (((⟨name⟩ : Path).relativeTo here).names, content) }
  fun path => (tree.read path).mapError PathFault.text

end FileSystem

end Gullet
