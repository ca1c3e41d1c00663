import Marginalia.Report.Basic

/-!
# Calls to the editor

The engine does not act on the editor itself. Its operations are told what the editor has
selected, and they return the calls that the editor has to carry out, in order.
-/

namespace Marginalia

/-- Where the keyboard can go. -/
inductive FocusTarget where
  | document
  | panel
  deriving DecidableEq, Repr

/-- A call to the editor. -/
inductive HostCall where
  /-- Select the text between two offsets and scroll it into view. -/
  | select (anchor head : Nat)
  /-- Move the keyboard focus. -/
  | focus (target : FocusTarget)
  /-- Replace an extent by a text. -/
  | replace (extent : Extent) (text : String)
  deriving DecidableEq, Repr

namespace HostCall

/-- What the editor has selected after a call, when it had `current` before. -/
def selectionAfter (current : Extent) : HostCall → Extent
  | .select anchor head => ⟨min anchor head, max anchor head⟩
  | .focus _ | .replace _ _ => current

end HostCall

/-- Run a quick fix on the current extent of its report. -/
def Action.run (a : Action) (extent : Extent) : HostCall :=
  match a.remedy with
  | .replace text => .replace extent text
  | .select => .select extent.start extent.stop

end Marginalia
