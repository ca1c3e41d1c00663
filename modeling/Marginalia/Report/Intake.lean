import Marginalia.Document
import Marginalia.Report.Basic

/-!
# Taking reports in

Reports come from outside and may not fit the document: an inverted span, one that reaches past
the end, or one of another source. An intake keeps those that fit and counts the others. If any
was rejected, one error report at the start of the document stands in for them, so that the
failure stays visible.
-/

namespace Marginalia

/-- The reports of one source for one evaluation, and how many of its results it could not turn
into reports at all. -/
structure Batch where
  reports : List Report
  malformed : Nat
  deriving DecidableEq, Repr

namespace Batch

/-- Nothing to report. -/
def empty : Batch := ⟨[], 0⟩

end Batch

/-- What has been taken in so far. -/
structure Intake where
  accepted : List Report
  rejected : Nat
  deriving DecidableEq, Repr

namespace Intake

/-- Nothing taken in yet. -/
def empty : Intake := ⟨[], 0⟩

/-- Whether a span is in order, inside the document and of its source. -/
def fits (doc : Document) (span : Span) : Bool :=
  span.extent.start ≤ span.extent.stop && span.extent.stop ≤ doc.length
    && span.source == doc.source

/-- Keep a report that fits, count one that does not. -/
def push (doc : Document) (intake : Intake) (r : Report) : Intake :=
  if fits doc r.span then { intake with accepted := intake.accepted ++ [r] }
  else { intake with rejected := intake.rejected + 1 }

/-- Take in a batch: first the results that its source dropped, then its reports in order. -/
def addBatch (doc : Document) (intake : Intake) (batch : Batch) : Intake :=
  batch.reports.foldl (push doc) { intake with rejected := intake.rejected + batch.malformed }

/-- The message of the report that stands in for rejected ones. -/
def malformedMessage : String := "malformed report from evaluator"

/-- What stands in for rejected reports. -/
def substitute (doc : Document) : Draft :=
  .error ⟨doc.source, .point 0⟩ malformedMessage

/-- The drafts to add at the end: the substitute if anything was rejected. -/
def additions (doc : Document) (intake : Intake) : List Draft :=
  if intake.rejected = 0 then [] else [substitute doc]

/-- All reports taken in, with the substitute last; it takes the key `next` if there is one. -/
def finish (doc : Document) (intake : Intake) (next : Nat) : List Report × Nat :=
  let (added, next) := Report.mint next (intake.additions doc)
  (intake.accepted ++ added, next)

/-- Take in batches one after another. -/
def ofBatches (doc : Document) (batches : List Batch) : Intake :=
  batches.foldl (addBatch doc) empty

end Intake

end Marginalia
