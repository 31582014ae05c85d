import Gullet.Diagnostic
import Gullet.Json.Saved

/-!
# Diagnostics for programs

The JSON form of a diagnostic, for programs that read reports.
-/

namespace Gullet

/-- The JSON form of a command that was running. -/
def Frame.saved (f : Frame) : Json :=
  .object [("operation", .string f.operation.name), ("trace", f.trace.saved)]

/-- The JSON form of a diagnostic. -/
def Diagnostic.saved (styling : Text.Styling) (d : Diagnostic) : Json :=
  let r := d.fault.report styling
  .object
    [("kind", .string r.kind.name), ("title", .string r.title),
     ("notes", .array (r.notes.map Json.string)), ("annotation", .string r.caption),
     ("trace", (d.trace.map Trace.saved).getD .null),
     ("stack_trace", .array (d.stack.map Frame.saved))]

end Gullet
