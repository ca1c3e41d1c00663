import Marginalia.Report.Filter
import Marginalia.Report.Rendering
import Marginalia.Store.Basic
import Marginalia.View.Theme

/-!
# Inline decorations

What is drawn in the text: a mark or a point for every annotation whose report is visible, in
the order of the store, and behind them a highlight of the selected report while the panel is
open. The highlight needs width and does not depend on the filter.
-/

namespace Marginalia

/-- Something drawn in the text. -/
inductive Decoration where
  | mark (extent : Extent) (styleClass color : String) (report : Report)
  | point (offset : Nat) (styleClass color : String) (report : Report)
  | active (extent : Extent) (background : String)
  deriving DecidableEq, Repr

namespace Decoration

/-- The class of marks. -/
def rangeClass : String := "cm-diagnosticRange"

/-- The class of points. -/
def pointClass : String := "cm-diagnosticPoint"

/-- The class of the highlight. -/
def activeClass : String := "cm-diagnosticRange-active"

/-- The classes of the mark of a report, with the extra class that the report asks for. -/
def classOfMark (r : Report) : String :=
  Rendering.classWithVariant rangeClass r.severity.name
    ++ (match r.markClass with | some extra => " " ++ extra | none => "")

/-- The classes of a point. -/
def classOfPoint (severity : Severity) : String :=
  Rendering.classWithVariant pointClass severity.name

/-- The decoration of an annotation. -/
def ofPlaced (theme : Theme) (a : Annotation) : Decoration :=
  match a.kind with
  | .mark => .mark a.extent (classOfMark a.report) (theme.color a.report.severity) a.report
  | .point =>
    .point a.extent.start (classOfPoint a.report.severity) (theme.color a.report.severity) a.report

/-- The extent to highlight: the selected report's, while the panel is open. -/
def activeExtent (s : Store) : Option Extent :=
  if s.panelOpen then
    (s.selected.map (·.extent)).filter fun extent => extent.start < extent.stop
  else none

/-- The annotations whose reports the filter shows. -/
def visible (s : Store) (filter : Option Filter) : List Annotation :=
  s.annotations.filter fun a => Filter.shows filter s.reports a.report

/-- All decorations of a store. -/
def ofStore (s : Store) (filter : Option Filter) (theme : Theme) : List Decoration :=
  (visible s filter).map (ofPlaced theme)
    ++ ((activeExtent s).map fun extent => active extent theme.active).toList

end Decoration

end Marginalia
