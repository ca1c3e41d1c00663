import Marginalia.Report.Filter
import Marginalia.Report.Rendering
import Marginalia.Store.Basic
import Marginalia.View.Screen
import Marginalia.View.Theme

/-!
# The gutter

Each line with reports has a marker in the gutter that shows the worst of them. Markers are
computed anew when the reports are replaced; between replacements edits carry them along, and
markers that come together on one line become one. A pointer that rests on a marker opens a
pop-up with the reports of the line. Until it is due, the time at which the pop-up opens is kept
in the marker, and polling opens the pop-up. Times are in milliseconds.
-/

namespace Marginalia

/-- Settings of the gutter. -/
structure Gutter.Options where
  /-- How long the pointer rests on a marker before the pop-up opens. -/
  hoverTime : Nat
  /-- How far the pointer may go from the marker while the pop-up stays. -/
  hoverMargin : Float32
  /-- Narrows the reports that get markers. -/
  markerFilter : Option Filter
  /-- Narrows the reports that the pop-up lists. -/
  popupFilter : Option Filter

/-- The marker of the line that starts at `lineStart`. -/
structure Gutter.Marker where
  lineStart : Nat
  severity : Severity
  reports : List Report
  /-- When the pop-up opens, while the pointer rests here. -/
  due : Option Nat
  deriving DecidableEq, Repr

/-- The open pop-up of the line that starts at `lineStart`. -/
structure Gutter.Popup where
  lineStart : Nat
  reports : List Report
  deriving DecidableEq, Repr

/-- The markers in line order, and the pop-up if it is open. -/
structure Gutter where
  markers : List Gutter.Marker
  popup : Option Gutter.Popup
  deriving DecidableEq, Repr

namespace Gutter

/-- How long a pointer rests unless the host says otherwise. -/
def standardHoverTime : Nat := 300

/-- How far a pointer may go unless the host says otherwise. -/
def standardHoverMargin : Float32 := 10

namespace Options

/-- The settings used unless the host gives others. -/
def standard : Options := ⟨standardHoverTime, standardHoverMargin, none, none⟩

end Options

namespace Marker

/-- The class of a gutter marker. -/
def markerClass : String := "cm-diagnostic-marker"

/-- The marker of a line with the given reports. -/
def ofReports (lineStart : Nat) (reports : List Report) : Marker :=
  ⟨lineStart, Report.worstSeverity reports, reports, none⟩

/-- The classes of a marker. -/
def styleClass (m : Marker) : String := Rendering.classWithVariant markerClass m.severity.name

/-- The colour of a marker. -/
def color (m : Marker) (theme : Theme) : String := theme.color m.severity

/-- One marker for two on the same line. The time of the first counts before that of the
second. -/
def absorb (m other : Marker) : Marker where
  lineStart := m.lineStart
  severity := m.severity.worse other.severity
  reports := m.reports ++ other.reports
  due := m.due.or other.due

/-- What the pop-up of a marker lists. -/
def listed (m : Marker) (options : Options) : List Report :=
  Filter.applyTo options.popupFilter m.reports

/-- Whether the pop-up should open by `now`. -/
def isDue (m : Marker) (now : Nat) : Bool :=
  match m.due with
  | some due => due ≤ now
  | none => false

end Marker

/-- The class of the gutter. -/
def gutterClass : String := "cm-gutter-diagnostic"

/-- No markers and no pop-up. -/
def empty : Gutter := ⟨[], none⟩

/-- The marker of the line that starts at `lineStart`. -/
def marker? (g : Gutter) (lineStart : Nat) : Option Marker :=
  g.markers.find? (·.lineStart == lineStart)

/-- The first and the last line number that an annotation occupies: the lines of its first and
last character, or the line of a point. -/
def lineNumbers (doc : Document) (extent : Extent) : Nat × Nat :=
  let first := (doc.lineAt extent.start).number
  (first, if extent.start < extent.stop then (doc.lineAt (extent.stop - 1)).number else first)

/-- The reports that occupy line `number`, given the lines that each occupies. -/
def reportsOn (number : Nat) (occupied : List ((Nat × Nat) × Report)) : List Report :=
  (occupied.filter fun entry => entry.1.1 ≤ number && number ≤ entry.1.2).map (·.2)

/-- The markers for the annotations of a store whose reports the filter shows. -/
def markersOf (s : Store) (doc : Document) (filter : Option Filter) : List Marker :=
  let occupied := (s.annotations.filter fun a => Filter.shows filter s.reports a.report).map
    fun a => (lineNumbers doc a.extent, a.report)
  doc.text.lines.filterMap fun line =>
    match reportsOn line.number occupied with
    | [] => none
    | reports => some (.ofReports line.start reports)

/-- The gutter after the reports were replaced: new markers, no pop-up. The answer says whether a
pop-up was open. -/
def rebuild (g : Gutter) (s : Store) (doc : Document) (filter : Option Filter) : Gutter × Bool :=
  (⟨markersOf s doc filter, none⟩, g.popup.isSome)

/-- Let `held` absorb the markers next to it that are on its line, and so on. -/
def mergeAfter (held : Marker) : List Marker → List Marker
  | [] => [held]
  | m :: rest =>
    if held.lineStart = m.lineStart then mergeAfter (held.absorb m) rest
    else held :: mergeAfter m rest

/-- Merge neighbours on the same line. -/
def merge : List Marker → List Marker
  | [] => []
  | m :: rest => mergeAfter m rest

/-- The marker after an edit, at the start of the line that it comes to stand in. It goes when
its place is lost. -/
def carryMarker? (e : Edit) (after : Document) (m : Marker) : Option Marker :=
  (e.image? .after m.lineStart).map fun offset =>
    { m with lineStart := (after.lineAt offset).start }

/-- The pop-up after an edit, which closes it by touching its line. -/
def carryPopup? (e : Edit) (before after : Document) (p : Popup) : Option Popup :=
  let line := before.lineAt p.lineStart
  if e.touches line.start line.stop then none
  else some { p with lineStart := (after.lineAt (e.image .after p.lineStart)).start }

/-- The gutter after an edit from the document `before` to the document `after`. The answer says
whether the edit closed the pop-up. -/
def carry (g : Gutter) (e : Edit) (before after : Document) : Gutter × Bool :=
  let popup := g.popup.bind (carryPopup? e before after)
  (⟨merge (g.markers.filterMap (carryMarker? e after)), popup⟩, g.popup.isSome && popup.isNone)

/-- Change the first marker of which `which` holds. -/
def updateFirst (which : Marker → Bool) (change : Marker → Marker) : List Marker → List Marker
  | [] => []
  | m :: rest => if which m then change m :: rest else m :: updateFirst which change rest

/-- The pointer has come to the marker of a line. Its time starts if its pop-up would list
anything; the answer says whether it does. -/
def pointerOver (g : Gutter) (lineStart now : Nat) (options : Options) : Gutter × Bool :=
  match g.marker? lineStart with
  | none => (g, false)
  | some m =>
    if (m.listed options).isEmpty then (g, false)
    else
      ({ g with
          markers := updateFirst (·.lineStart == lineStart)
            ({ · with due := some (now + options.hoverTime) }) g.markers },
        true)

/-- The pointer has moved on the marker of a line: a time that runs starts again. -/
def pointerMove (g : Gutter) (lineStart now : Nat) (options : Options) : Gutter :=
  { g with
    markers := updateFirst (fun m => m.lineStart == lineStart && m.due.isSome)
      ({ · with due := some (now + options.hoverTime) }) g.markers }

/-- The pointer has left the marker of a line: its time stops. -/
def pointerOut (g : Gutter) (lineStart : Nat) : Gutter :=
  { g with markers := updateFirst (·.lineStart == lineStart) ({ · with due := none }) g.markers }

/-- The pop-up of the last marker that is due by `now` and has something to list. -/
def duePopup? (markers : List Marker) (now : Nat) (options : Options) : Option Popup :=
  (markers.reverse.find? fun m => m.isDue now && !(m.listed options).isEmpty).map fun m =>
    ⟨m.lineStart, m.listed options⟩

/-- Stop every time that is due by `now`, and open the pop-up that is due, if there is one. -/
def poll (g : Gutter) (now : Nat) (options : Options) : Gutter × Option Popup :=
  let opened := duePopup? g.markers now options
  let markers := g.markers.map fun m => if m.isDue now then { m with due := none } else m
  (⟨markers, opened.or g.popup⟩, opened)

/-- The pointer has moved while a pop-up may be open. The pop-up closes unless the pointer is
over it or near the marker, whose rectangle is given; the answer says whether it closes. -/
def pointerMoved (g : Gutter) (pointer : ScreenPoint) (marker : Rect) (overPopup : Bool)
    (options : Options) : Gutter × Bool :=
  if g.popup.isNone || overPopup || (marker.inflate options.hoverMargin).contains pointer then
    (g, false)
  else ({ g with popup := none }, true)

/-- Close the pop-up; the answer says whether it was open. -/
def dismiss (g : Gutter) : Gutter × Bool := ({ g with popup := none }, g.popup.isSome)

/-- Stop every time and close the pop-up; the answer says whether it was open. -/
def cancel (g : Gutter) : Gutter × Bool :=
  (⟨g.markers.map ({ · with due := none }), none⟩, g.popup.isSome)

/-- The earliest time at which a pop-up is due. -/
def nextDue (g : Gutter) : Option Nat := (g.markers.filterMap (·.due)).min?

/-- What the pop-up displays. -/
def Popup.render (p : Popup) : List Rendering := Rendering.inTooltip p.reports

end Gutter

end Marginalia
