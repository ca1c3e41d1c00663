import Marginalia.Describe.Record
import Marginalia.Report.Basic

/-!
# Descriptions of reports

A report is described by what it says; of an action only the name is told, and of custom content
only that there is some.
-/

namespace Marginalia

/-- The description of a severity. -/
def Severity.describe : Severity → String
  | .hint => "Hint"
  | .info => "Info"
  | .warning => "Warning"
  | .error => "Error"

/-- The description of a span. -/
def Span.describe (s : Span) : String :=
  Describe.record "Span"
    [("source_id", Describe.text s.source), ("from", toString s.extent.start),
      ("to", toString s.extent.stop)]

/-- The description of an action. -/
def Action.describe (a : Action) : String :=
  Describe.record "Action" [("name", Describe.text a.name)]

/-- The description of a report. -/
def Report.describe (r : Report) : String :=
  Describe.record "Report"
    [("span", r.span.describe), ("severity", r.severity.describe),
      ("message", Describe.text r.message),
      ("mark_class", Describe.optional (r.markClass.map Describe.text)),
      ("actions", Describe.list (r.actions.map Action.describe)),
      ("custom_render", Describe.flag r.rendered.isSome)]

end Marginalia
