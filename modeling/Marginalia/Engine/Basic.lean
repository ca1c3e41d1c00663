import Marginalia.Engine.Host
import Marginalia.Engine.Options
import Marginalia.Report.Intake
import Marginalia.Store.Update
import Marginalia.Timing.Gather
import Marginalia.View.Decoration
import Marginalia.View.Hover
import Marginalia.View.Panel

/-!
# The engine of one document

The engine holds a document, the store of its reports, the waiting for the next evaluation and
the views, and keeps them in step. Everything that changes the store goes through `commit`, which
updates the store first and then each view. Evaluations happen outside: `poll` hands out a
request when one is due, and `complete` takes the reports back, unless the document has changed
since or the engine was detached.
-/

namespace Marginalia

/-- Everything that belongs to one document. -/
structure Engine where
  doc : Document
  store : Store
  debounce : Debounce
  panel : Option Panel
  gutter : Gutter
  hover : Option Hover
  options : Engine.Options
  /-- The first key that the engine has not given to a report yet. -/
  nextKey : Nat

namespace Engine

/-- A text to evaluate. -/
structure Request where
  ticket : Ticket
  source : String
  text : Text
  deriving DecidableEq, Repr

/-- What a host has to redraw after a transaction. -/
structure ViewUpdate where
  /-- The version of the store. -/
  version : Nat
  textChanged : Bool
  reportsReplaced : Bool
  /-- What happened in the panel, if it is open. -/
  panel : Option Panel.Update
  panelClosed : Bool
  hoverClosed : Bool
  popupClosed : Bool
  deriving DecidableEq, Repr

/-- What became of the results of a run. -/
inductive Verdict where
  /-- They replaced the reports. -/
  | applied (update : ViewUpdate)
  /-- They were for a version that is not the current one. -/
  | stale (ticket : Ticket) (current : Nat)
  /-- The engine was detached. -/
  | detached
  deriving DecidableEq, Repr

/-- Begin with a document at `now`. The first evaluation waits for the quiet period. -/
def attach (doc : Document) (options : Options) (now : Nat) : Engine where
  doc
  store := .empty
  debounce := .attach options.delay now
  panel := none
  gutter := .empty
  hover := none
  options
  nextKey := 0

/-- Stop evaluating. Pop-ups and tooltips close and do not open by themselves any more. -/
def detach (en : Engine) : Engine :=
  { en with debounce := en.debounce.detach, gutter := en.gutter.cancel.1, hover := none }

/-- Whether the engine has not been detached. -/
def isAttached (en : Engine) : Bool := en.debounce.attached

/-- Take other settings at `now`, which counts as a change. -/
def setOptions (en : Engine) (options : Options) (now : Nat) : Engine :=
  { en with debounce := en.debounce.setDelay options.delay now, options }

/-- Something else that evaluations depend on has changed at `now`. -/
def noteConfigChange (en : Engine) (now : Nat) : Engine :=
  { en with debounce := en.debounce.noteChange now }

/-- The gutter after a transaction from the document `before` to the current one, and whether
its pop-up was closed by it. -/
def commitGutter (en : Engine) (t : Transaction) (before : Document) (store : Store) :
    Gutter × Bool :=
  let (carried, touched) :=
    match t.change with
    | some e => en.gutter.carry e before en.doc
    | none => (en.gutter, false)
  if t.setsReports then
    let (rebuilt, wasOpen) := carried.rebuild store en.doc en.options.gutter.markerFilter
    (rebuilt, touched || wasOpen)
  else (carried, touched)

/-- The hover tooltip after a transaction, and whether it was closed by it. -/
def commitHover (en : Engine) (t : Transaction) (before : Document) : Option Hover × Bool :=
  match en.hover with
  | none => (none, false)
  | some h =>
    if h.closedBy t.change t.setsReports before then (none, true)
    else
      match t.change with
      | some e => (some (h.carry e), false)
      | none => (some h, false)

/-- The panel for a store, what happened in it, and whether it was closed. -/
def commitPanel (en : Engine) (store : Store) : Option Panel × Option Panel.Update × Bool :=
  match store.panelOpen, en.panel with
  | true, some panel =>
    let (panel, update) := panel.sync store
    (some panel, some update, false)
  | true, none =>
    let (panel, update) := Panel.opened store
    (some panel, some update, false)
  | false, some _ => (none, none, true)
  | false, none => (none, none, false)

/-- Bring the store and the views up to date with a transaction. The engine holds the edited
document already; `before` is the one that the edit was made on. -/
def commit (en : Engine) (t : Transaction) (before : Document) :
    Except Fault (Engine × ViewUpdate) :=
  match en.store.update t en.doc with
  | .error fault => .error fault
  | .ok store =>
    let (gutter, popupClosed) := en.commitGutter t before store
    let (hover, hoverClosed) := en.commitHover t before
    let (panel, panelUpdate, panelClosed) := en.commitPanel store
    .ok ({ en with store, gutter, hover, panel },
      { version := store.version, textChanged := t.changesText, reportsReplaced := t.setsReports,
        panel := panelUpdate, panelClosed, hoverClosed, popupClosed })

/-- Commit a transaction that leaves the document alone. -/
def commitEffects (en : Engine) (effects : List Effect) : Except Fault (Engine × ViewUpdate) :=
  en.commit ⟨none, effects⟩ en.doc

/-- Apply a transaction at `now`. If its edit does not fit the document, nothing changes. An edit
that changes nothing is not compared with the document at all. -/
def dispatch (en : Engine) (t : Transaction) (now : Nat) :
    Except Fault (Engine × Except Edit.Error ViewUpdate) :=
  match t.change with
  | none => (en.commit t en.doc).map fun (en, update) => (en, .ok update)
  | some e =>
    match en.doc.apply e with
    | .error error => .ok (en, .error error)
    | .ok doc =>
      (commit { en with doc, debounce := en.debounce.noteChange now } t en.doc).map
        fun (en, update) => (en, .ok update)

/-- Apply an edit that the host has made at `now`. -/
def edit (en : Engine) (e : Edit) (now : Nat) :
    Except Fault (Engine × Except Edit.Error ViewUpdate) :=
  en.dispatch (.ofEdit e) now

/-- The reports of an intake, with the substitute, and the engine with the key of the substitute
given out. -/
def takeIn (en : Engine) (intake : Intake) : Engine × List Report :=
  let (reports, nextKey) := intake.finish en.doc en.nextKey
  ({ en with nextKey }, reports)

/-- Replace all reports at `now` by those of the given ones that fit the document. -/
def setReports (en : Engine) (reports : List Report) (now : Nat) :
    Except Fault (Engine × Except Edit.Error ViewUpdate) :=
  let (en, taken) := en.takeIn (reports.foldl (Intake.push en.doc) .empty)
  en.dispatch (.ofReports taken) now

/-- The request that goes with a ticket. -/
def request (en : Engine) (ticket : Ticket) : Request := ⟨ticket, en.doc.source, en.doc.text⟩

/-- Let the evaluation timer go off if it is due by `now`. -/
def poll (en : Engine) (now : Nat) : Engine × Option Request :=
  let (debounce, ticket) := en.debounce.poll now en.doc.version
  ({ en with debounce }, ticket.map en.request)

/-- Start the pending evaluation at `now` without waiting. -/
def force (en : Engine) (now : Nat) : Engine × Option Request :=
  let (debounce, ticket) := en.debounce.force now en.doc.version
  ({ en with debounce }, ticket.map en.request)

/-- Take the results of a run, one batch per source of reports. -/
def complete (en : Engine) (ticket : Ticket) (batches : List Batch) :
    Except Fault (Engine × Verdict) :=
  if !en.isAttached then .ok (en, .detached)
  else if ticket.version ≠ en.doc.version then .ok (en, .stale ticket en.doc.version)
  else
    let (en, taken) := en.takeIn (.ofBatches en.doc batches)
    (en.commitEffects [.setReports taken .first]).map fun (en, update) => (en, .applied update)

/-- Take the results of a run once they are all there. -/
def completeGathered (en : Engine) (g : Gather Batch) : Except Fault (Engine × Option Verdict) :=
  match g.results? with
  | none => .ok (en, none)
  | some batches => (en.complete g.ticket batches).map fun (en, verdict) => (en, some verdict)

/-- The earliest time at which the host should poll again, for an evaluation or a pop-up. -/
def nextDeadline (en : Engine) : Option Nat :=
  match en.debounce.timer, en.gutter.nextDue with
  | some a, some b => some (min a b)
  | a, b => a.or b

/-- What is drawn in the text. -/
def decorations (en : Engine) : List Decoration :=
  Decoration.ofStore en.store en.options.markerFilter en.options.theme

/-- Open the tooltip for a pointer at `pos`, or close it if there is nothing to show there. -/
def hoverAt (en : Engine) (pos : Nat) (side : Side) : Engine :=
  { en with hover := Hover.at? en.store en.doc pos side en.options.tooltipFilter }

/-- Close the tooltip. -/
def clearHover (en : Engine) : Engine := { en with hover := none }

/-- The pointer has come to the marker of a line. A detached engine does not respond. -/
def gutterOver (en : Engine) (lineStart now : Nat) : Engine × Bool :=
  if !en.isAttached then (en, false)
  else
    let (gutter, armed) := en.gutter.pointerOver lineStart now en.options.gutter
    ({ en with gutter }, armed)

/-- The pointer has moved on the marker of a line. -/
def gutterMove (en : Engine) (lineStart now : Nat) : Engine :=
  { en with gutter := en.gutter.pointerMove lineStart now en.options.gutter }

/-- The pointer has left the marker of a line. -/
def gutterOut (en : Engine) (lineStart : Nat) : Engine :=
  { en with gutter := en.gutter.pointerOut lineStart }

/-- Open the pop-up that is due by `now`. -/
def gutterPoll (en : Engine) (now : Nat) : Engine × Option Gutter.Popup :=
  let (gutter, opened) := en.gutter.poll now en.options.gutter
  ({ en with gutter }, opened)

/-- The pointer has moved while the pop-up may be open; the answer says whether it closes. -/
def gutterPointer (en : Engine) (pointer : ScreenPoint) (marker : Rect) (overPopup : Bool) :
    Engine × Bool :=
  let (gutter, closed) := en.gutter.pointerMoved pointer marker overPopup en.options.gutter
  ({ en with gutter }, closed)

end Engine

end Marginalia
