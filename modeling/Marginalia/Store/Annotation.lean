import Marginalia.Document
import Marginalia.Report.Basic

/-!
# Annotations

An annotation is a report at its current place in the text: a mark over characters, or a point
between them. A report becomes a point when its span is empty or covers one character that ends
its line, since there is nothing to mark there. Through an edit a mark keeps the characters that
survive: its start moves after text inserted there, its stop stays before, and it goes when
nothing is left between them. A point goes when it is lost.
-/

namespace Marginalia

/-- How an annotation is drawn. -/
inductive Annotation.Kind where
  | mark
  | point
  deriving DecidableEq, Repr

/-- A report at its current extent. -/
structure Annotation where
  extent : Extent
  kind : Annotation.Kind
  report : Report
  deriving DecidableEq, Repr

namespace Annotation

/-- Whether a span of the document is shown as a point. -/
def isPointSpan (doc : Document) (extent : Extent) : Bool :=
  extent.isEmpty
    || (extent.start + 1 == extent.stop && (doc.lineAt extent.start).stop == extent.start)

/-- The annotation of a report at its own span, unless the span does not fit the document. -/
def ofReport? (doc : Document) (r : Report) : Option Annotation :=
  let extent := r.span.extent
  if extent.stop < extent.start || doc.length < extent.stop then none
  else if isPointSpan doc extent then some ⟨.point extent.start, .point, r⟩
  else some ⟨extent, .mark, r⟩

/-- The annotations of the reports that fit the document, in order of their extents. -/
def place (doc : Document) (reports : List Report) : List Annotation :=
  sortByExtent extent (reports.filterMap (ofReport? doc))

/-- The annotation after an edit, unless the edit removes what it stands on. -/
def carry? (e : Edit) (a : Annotation) : Option Annotation :=
  match a.kind with
  | .point => (e.image? .before a.extent.start).map fun offset => { a with extent := .point offset }
  | .mark =>
    let start := e.image .after a.extent.start
    let stop := e.image .before a.extent.stop
    if start < stop then some { a with extent := ⟨start, stop⟩ } else none

/-- The annotations that are left after an edit, in order of their new extents. -/
def carryAll (e : Edit) (annotations : List Annotation) : List Annotation :=
  sortByExtent extent (annotations.filterMap (carry? e))

end Annotation

end Marginalia
