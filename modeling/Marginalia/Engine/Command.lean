import Marginalia.Engine.Basic
import Marginalia.Store.Navigation

/-!
# Commands and keys

What users do with the keyboard and the mouse: open and close the panel, go from report to
report, move in the panel, run quick fixes. These operations tell the editor what to select and
where to put the focus; going from report to report needs to know what the editor has selected.
-/

namespace Marginalia.Engine

/-- A command for the keymap of the host. -/
inductive Command where
  | openPanel
  | closePanel
  | nextReport
  | previousReport
  deriving DecidableEq, Repr

namespace Command

/-- The name of a command. -/
def name : Command → String
  | .openPanel => "open"
  | .closePanel => "close"
  | .nextReport => "next"
  | .previousReport => "previous"

/-- The command of that name. -/
def ofName? : String → Option Command
  | "open" => some .openPanel
  | "close" => some .closePanel
  | "next" => some .nextReport
  | "previous" => some .previousReport
  | _ => none

end Command

/-- A key bound to a command. -/
structure Binding where
  key : String
  command : Command
  /-- Whether the editor must not act on the key, even if the command does nothing. -/
  exclusive : Bool
  deriving DecidableEq, Repr

/-- The bindings to begin with. `Mod` is the control or the command key. -/
def standardBindings : List Binding :=
  [⟨"Mod-Shift-m", .openPanel, true⟩, ⟨"F8", .nextReport, false⟩]

/-- What an operation leaves, answers and asks of the editor. -/
structure Reply (α : Type) where
  engine : Engine
  answer : α
  calls : List HostCall

/-- Open the panel unless it is open, and go there. The answer is what happened in it. -/
def openPanel (en : Engine) : Except Fault (Reply (Option Panel.Update)) :=
  if en.store.panelOpen then .ok ⟨en, none, [.focus .panel]⟩
  else (en.commitEffects [.setPanel true]).map fun (en, update) =>
    ⟨en, update.panel, [.focus .panel]⟩

/-- Close the panel; the answer says whether it was open. -/
def closePanel (en : Engine) : Except Fault (Engine × Bool) :=
  if en.store.panelOpen then (en.commitEffects [.setPanel false]).map fun (en, _) => (en, true)
  else .ok (en, false)

/-- Select a report in the editor and in the store. -/
def moveTo (en : Engine) (target : Option Selection) : Except Fault (Reply Bool) :=
  match target with
  | none => .ok ⟨en, false, []⟩
  | some selection =>
    (en.commitEffects [.select selection]).map fun (en, _) =>
      ⟨en, true, [.select selection.extent.start selection.extent.stop]⟩

/-- Go to the report after what the editor has selected. -/
def selectNext (en : Engine) (cursor : Extent) : Except Fault (Reply Bool) :=
  en.moveTo ((Store.following en.store.annotations cursor).map Store.selectionOf)

/-- Go to the report before what the editor has selected. -/
def selectPrevious (en : Engine) (cursor : Extent) : Except Fault (Reply Bool) :=
  en.moveTo ((Store.preceding en.store.annotations cursor).map Store.selectionOf)

/-- Run a command; the answer says whether it did anything. -/
def execute (en : Engine) (cursor : Extent) : Command → Except Fault (Reply Bool)
  | .openPanel => en.openPanel.map fun r => ⟨r.engine, true, r.calls⟩
  | .closePanel => en.closePanel.map fun (en, closed) => ⟨en, closed, []⟩
  | .nextReport => en.selectNext cursor
  | .previousReport => en.selectPrevious cursor

/-- The report of the panel item at an index, where it is now. There is none while no item is
selected. -/
def panelTarget (en : Engine) (index : Nat) : Option Selection := do
  let panel ← en.panel
  let _ ← panel.selectedIndex
  let item ← panel.items[index]?
  en.store.find? (some item.report) 0

/-- Select the panel item at an index. -/
def panelSelect (en : Engine) (index : Nat) : Except Fault (Reply Bool) :=
  en.moveTo (en.panelTarget index)

/-- Run a quick fix of a report where the report is now. Nothing is asked of the editor, and the
answer is false, if the report is not in the store or has no such action. -/
def invoke (en : Engine) (r : Report) (action : Nat) : Bool × List HostCall :=
  match en.store.find? (some r) 0, r.actions[action]? with
  | some found, some a => (true, [a.run found.extent])
  | _, _ => (false, [])

/-- Carry out what a panel key asks for. -/
def panelRequest (en : Engine) : Panel.Request → Except Fault (Reply Bool)
  | .close => en.closePanel.map fun (en, _) => ⟨en, true, [.focus .document]⟩
  | .select index => (en.panelSelect index).map fun r => { r with answer := true }
  | .focusDocument => .ok ⟨en, true, [.focus .document]⟩
  | .invoke item action =>
    match en.panel.bind (·.items[item]?) with
    | some item => .ok ⟨en, true, (en.invoke item.report action).2⟩
    | none => .ok ⟨en, true, []⟩
  | .consume => .ok ⟨en, true, []⟩

/-- Press a key in the panel; the answer says whether it was used up. -/
def panelKey (en : Engine) (key : Panel.Key) : Except Fault (Reply Bool) :=
  match en.panel.bind (·.request? key) with
  | none => .ok ⟨en, false, []⟩
  | some request => en.panelRequest request

/-- Click on the panel item at an index; the answer says whether it was selected. -/
def panelClick (en : Engine) (index : Nat) : Except Fault (Reply Bool) := en.panelSelect index

end Marginalia.Engine
