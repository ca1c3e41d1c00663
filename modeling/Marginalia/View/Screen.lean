/-!
# Points and rectangles on the screen

Screen coordinates come from the host in single precision, and the sums and comparisons here are
those of that precision; a comparison with a NaN is false. The edges of a rectangle are outside
of it.
-/

namespace Marginalia

/-- A point on the screen, with `y` growing downward. -/
structure ScreenPoint where
  x : Float32
  y : Float32

/-- A rectangle by its edges. -/
structure Rect where
  left : Float32
  top : Float32
  right : Float32
  bottom : Float32

namespace Rect

/-- The distance from the top edge to the bottom edge. -/
def height (r : Rect) : Float32 := r.bottom - r.top

/-- The rectangle with `margin` added on every side. -/
def inflate (r : Rect) (margin : Float32) : Rect :=
  ⟨r.left - margin, r.top - margin, r.right + margin, r.bottom + margin⟩

/-- Whether a point lies strictly inside. -/
def contains (r : Rect) (p : ScreenPoint) : Bool :=
  r.left < p.x && p.x < r.right && r.top < p.y && p.y < r.bottom

/-- How far to scroll a list so that `item` comes into its visible part, downward if positive.
`scale` is the height of the list on the screen over its layout height; one that is not positive
counts as 1. -/
def scrollAdjustment (item visible : Rect) (scale : Float32) : Float32 :=
  let scale := if 0 < scale then scale else 1
  if item.top < visible.top then -(visible.top - item.top) / scale
  else if visible.bottom < item.bottom then (item.bottom - visible.bottom) / scale
  else 0

end Rect

end Marginalia
