import Marginalia.Extent

/-!
# Errors of edits

What can be wrong with an edit: an extent that is inverted or reaches past the text, two extents
that get in each other's way, and a text of another length than the edit was made for. The cases
carry the numbers that their wording needs.
-/

namespace Marginalia.Edit

/-- Why an edit could not be made or applied. -/
inductive Error where
  /-- An extent stops before it starts. -/
  | invalidRange (extent : Extent)
  /-- An extent stops past the end of a text of the given length. -/
  | outOfBounds (extent : Extent) (length : Nat)
  /-- The extent that starts at `offset` overlaps the one before it. -/
  | overlap (offset : Nat)
  /-- The text has `actual` characters where `expected` were announced. -/
  | lengthMismatch (expected actual : Nat)
  deriving DecidableEq, Repr

/-- The wording of an error. -/
def Error.message : Error → String
  | .invalidRange extent => s!"invalid change range {extent.start}..{extent.stop}"
  | .outOfBounds extent length =>
    s!"change range {extent.start}..{extent.stop} exceeds document length {length}"
  | .overlap offset => s!"overlapping changes at offset {offset}"
  | .lengthMismatch expected actual =>
    s!"change set expects a document of {expected} characters, found {actual}"

end Marginalia.Edit
