import Gullet.Diagnostic
import Gullet.Settings

/-!
# Events

Everything that leaves the interpreter is an event. Events are recorded one by one as they happen; for
showing, writes that follow one another with the same settings are joined.
-/

namespace Gullet

/-- Something that the interpreter hands to the outside. -/
inductive Event where
  | beginParse (origin : Origin)
  | endParse
  /-- A group was opened. -/
  | beginGroup (g : Group)
  /-- A group was closed. -/
  | endGroup (g : Group)
  /-- Text is written. -/
  | write (text : String) (settings : Settings)
  /-- A paragraph ends. -/
  | par
  /-- An alignment tab. -/
  | tab
  /-- Verbatim text, with or without visible spaces. -/
  | verb (text : String) (starred : Bool)
  /-- A link. -/
  | href (url text : String)
  /-- A graphic with its options. -/
  | includeGraphics (options : List (String × String)) (name : String)
  /-- A file is read. -/
  | input (path : Path)
  /-- The document refers to a file. -/
  | fileReference (path : Path)
  | subscript (text : String) (argument : Object)
  | superscript (text : String) (argument : Object)
  /-- A failure from which the interpreter recovers. -/
  | warning (d : Diagnostic)
  /-- Something is replaced by something else. -/
  | substituting (old new : String)
  /-- Input without effect is skipped. -/
  | skipping (c : Comment)
  /-- A message for the user. -/
  | message (text : String)

/-- Adds an event to events that are listed latest first. A write joins the one before it if they have
the same settings. -/
def Event.addJoining : List Event → Event → List Event
  | .write s settings :: before, .write s' settings' =>
    if settings = settings' then .write (s ++ s') settings :: before
    else .write s' settings' :: .write s settings :: before
  | before, e => e :: before

/-- The events with writes of the same settings joined. -/
def Event.joinWrites (events : List Event) : List Event := (events.foldl addJoining []).reverse

end Gullet
