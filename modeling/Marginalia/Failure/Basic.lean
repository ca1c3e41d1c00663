import Marginalia.Document
import Marginalia.Report.Intake

/-!
# Failures of an evaluation

An evaluator that fails reports failures: each with a span in bytes of the UTF-8 form, a message,
further labels and notes. As a report a failure is an error whose message is that of the failure
and of its labels. Notes are not shown. A failure whose span does not fall on characters of the
document is malformed.
-/

namespace Marginalia

/-- The bytes from `start` up to `stop` of the source named `source`. -/
structure ByteSpan where
  source : String
  start : Nat
  stop : Nat
  deriving DecidableEq, Repr

/-- A further message, with the place that it is about. -/
structure Failure.Label where
  span : ByteSpan
  message : String
  deriving DecidableEq, Repr

/-- One failure. -/
structure Failure where
  span : ByteSpan
  message : String
  labels : List Failure.Label
  notes : List String
  deriving DecidableEq, Repr

namespace Failure

/-- The message of a failure and those of its labels, with blank lines between them. -/
def fullMessage (f : Failure) : String :=
  f.labels.foldl (fun text label => text ++ "\n\n" ++ label.message) f.message

/-- The failure as a report in a document, if its span falls on characters. -/
def toDraft? (doc : Document) (f : Failure) : Option Draft :=
  if f.span.stop < f.span.start then none
  else do
    let start ← doc.charOffset? f.span.start
    let stop ← doc.charOffset? f.span.stop
    return .error ⟨f.span.source, ⟨start, stop⟩⟩ f.fullMessage

/-- The reports for the failures that can be placed. -/
def drafts (doc : Document) (failures : List Failure) : List Draft :=
  failures.filterMap (toDraft? doc)

/-- The number of failures that cannot be placed. -/
def malformed (doc : Document) (failures : List Failure) : Nat :=
  failures.countP fun f => (f.toDraft? doc).isNone

end Failure

end Marginalia
