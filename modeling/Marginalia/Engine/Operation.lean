import Marginalia.Engine.Command

/-!
# Runs of an engine

Everything that a host can do to an engine, as data, and what each operation leaves and answers.
A run of an engine is a list of operations, in any order. An operation that faults ends the run.
-/

namespace Marginalia.Engine

/-- An operation of a host, with the time at which it happens where that matters. -/
inductive Operation where
  | edit (e : Edit) (now : Nat)
  | dispatch (t : Transaction) (now : Nat)
  | setReports (reports : List Report) (now : Nat)
  | poll (now : Nat)
  | force (now : Nat)
  | complete (ticket : Ticket) (batches : List Batch)
  | completeGathered (g : Gather Batch)
  | setOptions (options : Options) (now : Nat)
  | noteConfigChange (now : Nat)
  | detach
  | hover (pos : Nat) (side : Side)
  | clearHover
  | gutterOver (lineStart now : Nat)
  | gutterMove (lineStart now : Nat)
  | gutterOut (lineStart : Nat)
  | gutterPoll (now : Nat)
  | gutterPointer (pointer : ScreenPoint) (marker : Rect) (overPopup : Bool)
  | openPanel
  | closePanel
  | panelKey (key : Panel.Key)
  | panelClick (index : Nat)
  | execute (command : Command)
  | invoke (report : Report) (action : Nat)

/-- What an operation answers. -/
inductive Answer where
  | done
  | flag (b : Bool)
  | update (result : Except Edit.Error ViewUpdate)
  | request (r : Option Request)
  | verdict (v : Verdict)
  | gathered (v : Option Verdict)
  | hover (h : Option Hover)
  | popup (p : Option Gutter.Popup)
  | panel (u : Option Panel.Update)

/-- A reply that asks nothing of the editor. -/
def Reply.quiet {α : Type} (engine : Engine) (answer : α) : Reply α := ⟨engine, answer, []⟩

/-- The same reply with another answer. -/
def Reply.map {α β : Type} (f : α → β) (r : Reply α) : Reply β := ⟨r.engine, f r.answer, r.calls⟩

/-- Carry out an operation. `cursor` is what the editor has selected. -/
def perform (en : Engine) (cursor : Extent) : Operation → Except Fault (Reply Answer)
  | .edit e now => (en.edit e now).map fun (en, r) => .quiet en (.update r)
  | .dispatch t now => (en.dispatch t now).map fun (en, r) => .quiet en (.update r)
  | .setReports reports now => (en.setReports reports now).map fun (en, r) => .quiet en (.update r)
  | .poll now => .ok (.quiet (en.poll now).1 (.request (en.poll now).2))
  | .force now => .ok (.quiet (en.force now).1 (.request (en.force now).2))
  | .complete ticket batches =>
    (en.complete ticket batches).map fun (en, v) => .quiet en (.verdict v)
  | .completeGathered g => (en.completeGathered g).map fun (en, v) => .quiet en (.gathered v)
  | .setOptions options now => .ok (.quiet (en.setOptions options now) .done)
  | .noteConfigChange now => .ok (.quiet (en.noteConfigChange now) .done)
  | .detach => .ok (.quiet en.detach (.flag en.detach.isAttached))
  | .hover pos side => .ok (.quiet (en.hoverAt pos side) (.hover (en.hoverAt pos side).hover))
  | .clearHover => .ok (.quiet en.clearHover .done)
  | .gutterOver line now =>
    .ok (.quiet (en.gutterOver line now).1 (.flag (en.gutterOver line now).2))
  | .gutterMove line now => .ok (.quiet (en.gutterMove line now) .done)
  | .gutterOut line => .ok (.quiet (en.gutterOut line) .done)
  | .gutterPoll now => .ok (.quiet (en.gutterPoll now).1 (.popup (en.gutterPoll now).2))
  | .gutterPointer pointer marker overPopup =>
    let (en, closed) := en.gutterPointer pointer marker overPopup
    .ok (.quiet en (.flag closed))
  | .openPanel => en.openPanel.map (·.map .panel)
  | .closePanel => en.closePanel.map fun (en, closed) => .quiet en (.flag closed)
  | .panelKey key => (en.panelKey key).map (·.map .flag)
  | .panelClick index => (en.panelClick index).map (·.map .flag)
  | .execute command => (en.execute cursor command).map (·.map .flag)
  | .invoke r action => .ok ⟨en, .flag (en.invoke r action).1, (en.invoke r action).2⟩

end Marginalia.Engine
