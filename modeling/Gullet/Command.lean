import Gullet.Macro
import Gullet.Primitive

/-!
# Commands and the names bound to them

A command is what a reference stands for at a given moment. References are bound under grouping. Looking
one up never fails: a reference that is bound to nothing stands for the undefined command.
-/

namespace Gullet

/-- A command. -/
inductive Command where
  /-- A primitive that is expanded. -/
  | expansion (p : ExpansionPrimitive)
  /-- A primitive that is executed. -/
  | execution (p : ExecutionPrimitive)
  /-- A macro. -/
  | custom (m : Macro)
  /-- A variable. -/
  | quantity (v : VariableCommand)
  /-- A character token under another name. -/
  | character (category : CharCategory) (c : Char)
  /-- Nothing. -/
  | undefined

namespace Command

instance : Inhabited Command := ⟨undefined⟩

/-- What kind of command it is, in words. -/
def words : Command → String
  | expansion _ => "an expansion command"
  | custom _ => "a user-defined macro"
  | execution _ => "an execution command"
  | quantity _ => "a variable command"
  | character _ _ => "a character token alias"
  | undefined => "an undefined command"

/-- The tag of the command. -/
def tag? : Command → Option Tag
  | expansion p => p.tag?
  | execution p => p.tag?
  | _ => none

/-- Whether the command is expanded. -/
def canExpand : Command → Bool
  | expansion _ | custom _ => true
  | _ => false

/-- Whether the command is anything but the undefined one. -/
def isDefined : Command → Bool
  | undefined => false
  | _ => true

/-- Whether two commands have the same meaning. Macros have if their contents are the same. -/
def sameMeaning : Command → Command → Bool
  | expansion p, expansion q => p = q
  | execution p, execution q => p = q
  | custom m, custom n => m.same n
  | quantity v, quantity w => v = w
  | character category c, character category' c' => category = category' && c = c'
  | undefined, undefined => true
  | _, _ => false

end Command

/-- The commands bound to references. -/
abbrev Bindings := ScopedMap CommandRef Command

namespace Bindings

/-- The command that a reference stands for. -/
def lookup (b : Bindings) (ref : CommandRef) : Command := (b.get? ref).getD .undefined

/-- The command that a value stands for: that of its reference, or the character itself. -/
def meaningOf (b : Bindings) : TokenValue → Command
  | .command ref => b.lookup ref
  | .char category c => .character category c

/-- Whether a reference stands for a defined command. -/
def isDefined (b : Bindings) (ref : CommandRef) : Bool := (b.lookup ref).isDefined

/-- The tag of the command that a token stands for. -/
def tagOf? (b : Bindings) (t : Token) : Option Tag :=
  match t.value with
  | .command ref => (b.lookup ref).tag?
  | .char _ _ => none

/-- Whether a token stands for a command that is expanded. -/
def canExpand (b : Bindings) (t : Token) : Bool :=
  match t.value with
  | .command ref => (b.lookup ref).canExpand
  | .char _ _ => false

/-- The names of all defined control sequences, in order. -/
def names (b : Bindings) : List String :=
  b.entries.filterMap fun (ref, command) =>
    match ref, command with
    | _, .undefined => none
    | .controlSequence name, _ => some name
    | .active _, _ => none

end Bindings

end Gullet
