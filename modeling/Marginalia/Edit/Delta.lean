import Marginalia.Edit.Basic

/-!
# Deltas

A delta lists removals and insertions one after another, each in the coordinates of the text that
the ones before it leave. It announces the lengths of the first and the last text. Converted to
an edit, every step becomes a pass of its own. Only the number of removed characters counts: the
removed text itself is not compared with the document.
-/

namespace Marginalia

namespace Delta

/-- At `start`, remove `removed` and put `inserted` in its place. -/
structure Step where
  start : Nat
  removed : Text
  inserted : Text
  deriving DecidableEq, Repr

namespace Step

/-- The number of characters removed. -/
def removedLength (s : Step) : Nat := s.removed.length

/-- Where the removed text stops; no offset goes past the greatest. -/
def stop (s : Step) : Nat := min (s.start + s.removedLength) greatestOffset

/-- The step as a splice of the text that it finds. -/
def toSplice (s : Step) : Splice := ⟨⟨s.start, s.stop⟩, s.inserted⟩

end Step

end Delta

/-- Steps that lead from a text of `before` characters to one of `after`. -/
structure Delta where
  before : Nat
  after : Nat
  steps : List Delta.Step
  deriving DecidableEq, Repr

namespace Delta

/-- A delta without steps. -/
def isEmpty (d : Delta) : Bool := d.steps.isEmpty

/-- Append the steps to `e`, each as an edit of the text that `e` leads to so far. -/
def appendSteps (e : Edit) : List Step → Except Edit.Error Edit
  | [] => .ok e
  | s :: rest =>
    match Edit.ofSplice e.lengthAfter s.toSplice with
    | .error error => .error error
    | .ok next => appendSteps ⟨e.lengthBefore, next.lengthAfter, e.passes ++ next.passes⟩ rest

/-- The edit that runs the steps. The length they end at has to be the one announced. -/
def toEdit (d : Delta) : Except Edit.Error Edit :=
  match appendSteps (.identity d.before) d.steps with
  | .error error => .error error
  | .ok e =>
    if e.lengthAfter = d.after then .ok e
    else .error (.lengthMismatch d.after e.lengthAfter)

end Delta

end Marginalia
