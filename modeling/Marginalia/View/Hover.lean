import Marginalia.Report.Filter
import Marginalia.Report.Rendering
import Marginalia.Store.Basic

/-!
# Hover tooltips

Hovering over the text opens one tooltip for all reports under the pointer: the marks over the
character there, and the points at the position itself. The tooltip spans all of them, also those
that a filter then leaves out. It stays open while edits leave its first line alone, and moves
with them.
-/

namespace Marginalia

/-- An open tooltip from the offset `anchor` to the offset `stop`. -/
structure Hover where
  anchor : Nat
  stop : Nat
  /-- Whether to show it above its first line, because the reports go on past that line. -/
  above : Bool
  reports : List Report
  deriving DecidableEq, Repr

namespace Hover

/-- Whether an extent lies under a pointer on the given side of `pos`. An extent without width
does at its position. -/
def covers (extent : Extent) (pos : Nat) (side : Side) : Bool :=
  extent.start ≤ pos && pos ≤ extent.stop
    && (extent.isEmpty
      || ((extent.start < pos || side == .after) && (pos < extent.stop || side == .before)))

/-- The tooltip for a pointer at `pos`, if any report is left to show. -/
def at? (s : Store) (doc : Document) (pos : Nat) (side : Side) (filter : Option Filter) :
    Option Hover :=
  let found := s.annotations.filter fun a => covers a.extent pos side
  let anchor := found.foldl (fun n a => min n a.extent.start) greatestOffset
  let stop := found.foldl (fun n a => max n a.extent.stop) 0
  match Filter.applyTo filter (found.map (·.report)) with
  | [] => none
  | reports => some ⟨anchor, stop, (doc.lineAt anchor).stop < stop, reports⟩

/-- Whether the tooltip has to close: when all reports are replaced, and when an edit touches
the line that it starts on. `doc` is the document before the edit. -/
def closedBy (h : Hover) (edit : Option Edit) (replaced : Bool) (doc : Document) : Bool :=
  replaced || (match edit with
    | some e => e.touches (doc.lineAt h.anchor).start (doc.lineAt h.anchor).stop
    | none => false)

/-- The tooltip after an edit that leaves it open. -/
def carry (h : Hover) (e : Edit) : Hover :=
  let anchor := e.image .after h.anchor
  { h with anchor, stop := max (e.image .before h.stop) anchor }

/-- What the tooltip displays. -/
def render (h : Hover) : List Rendering := Rendering.inTooltip h.reports

/-- The class of the tooltip. -/
def tooltipClass : String := "cm-tooltip-diagnostic"

end Hover

end Marginalia
