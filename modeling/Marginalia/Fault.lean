import Marginalia.Extent

/-!
# Faults

A fault is a broken promise: the caller, or an operation of this library, has left a state that
must not occur. An operation that meets one gives no result at all, and a run ends there. Faults
are different from the errors of edits, which are ordinary answers to ordinary input.
-/

namespace Marginalia

/-- What promise was broken. -/
inductive Fault where
  /-- Two edits were chained although the second is not for the text that the first leaves. -/
  | notAdjacent
  /-- The annotations of a store do not ascend. -/
  | outOfOrder
  /-- An annotation does not lie inside the text of the given length. -/
  | outsideText (extent : Extent) (length : Nat)
  /-- A point annotation has width. -/
  | pointWithWidth
  /-- The selected report has no annotation. -/
  | selectionMissing
  deriving DecidableEq, Repr

/-- The wording of a fault. -/
def Fault.message : Fault → String
  | .notAdjacent => "composed change sets must be adjacent"
  | .outOfOrder => "report ranges out of order"
  | .outsideText extent length =>
    s!"report range {extent.start}..{extent.stop} outside document of length {length}"
  | .pointWithWidth => "point report with width"
  | .selectionMissing => "selected report is not in the store"

end Marginalia
