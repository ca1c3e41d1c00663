import Marginalia.Store.Basic

/-!
# Moving between reports

From a selected extent of the editor the next annotation is the first one above it in the order
of extents, and the previous one the last one below it. At an end the search goes round to the
other end, but not to where the editor already is: going forward the first annotation must have
another extent, going backward the last one must have another start.
-/

namespace Marginalia.Store

/-- The annotation to go to from `current`, forward. -/
def following (annotations : List Annotation) (current : Extent) : Option Annotation :=
  (annotations.find? (current < ·.extent)).orElse fun _ =>
    annotations.head?.filter (·.extent != current)

/-- The annotation to go to from `current`, backward. -/
def preceding (annotations : List Annotation) (current : Extent) : Option Annotation :=
  (annotations.reverse.find? (·.extent < current)).orElse fun _ =>
    annotations.getLast?.filter (·.extent.start != current.start)

end Marginalia.Store
