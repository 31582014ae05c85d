import Gullet.CatCode.Table
import Gullet.Json
import Gullet.Object
import Gullet.Settings
import Gullet.Source

/-!
# Saved values

The JSON forms in which settings, places, kinds of groups and tables of category codes are saved and
read again. Choices are written by name; a structure is an object with a field for each part.
-/

namespace Gullet

/-- Counts are less than this number. -/
def countBound : Nat := 0x10000000000000000

namespace Settings

/-- The saved form of an optional text. -/
def savedOption : Option String → Json
  | none => .null
  | some s => .string s

/-- The optional text of a saved form. -/
def option? : Json → Option (Option String)
  | .null => some none
  | .string s => some (some s)
  | _ => none

/-- The saved form. -/
def saved (s : Settings) : Json :=
  .object
    [("family", .string s.family.name), ("shape", .string s.shape.name),
     ("weight", .string s.weight.name), ("size", .string s.size.name),
     ("mode", .string s.mode.name), ("foreground", savedOption s.foreground),
     ("background", savedOption s.background)]

/-- The settings of a saved form. Colours may be left out. -/
def ofSaved? (j : Json) : Option Settings := do
  let fields ← j.fields?
    [("family", none), ("shape", none), ("weight", none), ("size", none), ("mode", none),
     ("foreground", some .null), ("background", some .null)]
  match fields with
  | [family, shape, weight, size, mode, foreground, background] =>
    return {
      family := ← family.named? Family.name Family.all
      shape := ← shape.named? Shape.name Shape.all
      weight := ← weight.named? Weight.name Weight.all
      size := ← size.named? Size.name Size.all
      mode := ← mode.named? TypesetMode.name TypesetMode.all
      foreground := ← option? foreground
      background := ← option? background }
  | _ => none

end Settings

/-- The saved form of an origin. -/
def Origin.saved : Origin → Json
  | file path => .object [("File", .string path.text)]
  | text name => .object [("String", .string name)]

/-- The origin of a saved form. -/
def Origin.ofSaved? (j : Json) : Option Origin :=
  match j.case? with
  | some ("File", .string path) => some (.file ⟨path⟩)
  | some ("String", .string name) => some (.text name)
  | _ => none

/-- The saved form of a place. -/
def Trace.saved (t : Trace) : Json :=
  .object
    [("origin", t.origin.saved), ("line_content", .string t.line),
     ("line_number", .number t.lineNumber), ("index", .number t.index),
     ("value", .string t.value)]

/-- The place of a saved form. -/
def Trace.ofSaved? (j : Json) : Option Trace := do
  let fields ← j.fields?
    [("origin", none), ("line_content", none), ("line_number", none), ("index", none),
     ("value", none)]
  match fields with
  | [origin, line, lineNumber, index, value] =>
    return {
      origin := ← Origin.ofSaved? origin
      line := ← line.string?
      lineNumber := ← lineNumber.natural? countBound
      index := ← index.natural? countBound
      value := ← value.string? }
  | _ => none

/-- The saved form of a kind of groups. -/
def GroupKind.saved : GroupKind → Json
  | brace => .string "Brace"
  | semisimple => .string "Semisimple"
  | math display => .object [("Math", .object [("display", .bool display)])]
  | environment name => .object [("Environment", .string name)]

/-- The kind of groups of a saved form. -/
def GroupKind.ofSaved? (j : Json) : Option GroupKind :=
  match j.case? with
  | some ("Brace", .null) => some brace
  | some ("Semisimple", .null) => some semisimple
  | some ("Math", .object fields) =>
    match Json.field? fields "display" with
    | some (.bool display) => some (math display)
    | _ => none
  | some ("Environment", .string name) => some (environment name)
  | _ => none

namespace CatCode

/-- A table of category codes as it is saved: the categories of the ASCII characters in order, and the
assignments listed beside them. -/
structure SavedTable where
  /-- The categories of the ASCII characters. -/
  ascii : List CatCode
  /-- The assignments that are listed by code point. -/
  listed : Table

namespace SavedTable

/-- The form in which a table is saved. -/
def ofTable (table : Table) : SavedTable where
  ascii := table.ascii
  listed := Std.TreeMap.ofList table.beyondAscii

/-- The form with one more assignment. -/
def assign (t : SavedTable) (codePoint : Nat) (c : CatCode) : SavedTable :=
  if codePoint < t.ascii.length then { t with ascii := t.ascii.set codePoint c }
  else { t with listed := t.listed.insert codePoint c }

/-- The code point that a key of the listed assignments says. -/
def codePoint? (key : String) : Option Nat :=
  match key.toList with
  | [] => none
  | ['0'] => some 0
  | '0' :: _ => none
  | chars =>
    if chars.all Char.isDigit && chars.length ≤ 10 then
      let n := chars.foldl (fun n c => n * 10 + (c.toNat - '0'.toNat)) 0
      if n < 0x100000000 then some n else none
    else none

/-- A category as it is saved. -/
def savedCode (c : CatCode) : Json := .string c.name

/-- The category of a saved form. -/
def code? (j : Json) : Option CatCode := j.named? CatCode.name CatCode.all

/-- The saved form. -/
def saved (t : SavedTable) : Json :=
  .object
    [("ascii", .array (t.ascii.map savedCode)),
     ("non_ascii", .object (t.listed.toList.map fun (n, c) => (toString n, savedCode c)))]

/-- The table of a saved form. It must have a category for every ASCII character. -/
def ofSaved? (j : Json) : Option SavedTable := do
  match ← j.fields? [("ascii", none), ("non_ascii", none)] with
  | [.array items, .object fields] =>
    let ascii ← items.mapM code?
    let listed ← fields.mapM fun (key, value) => do return (← codePoint? key, ← code? value)
    if ascii.length = 128 then return { ascii, listed := Std.TreeMap.ofList listed } else none
  | _ => none

end SavedTable

end CatCode

end Gullet
