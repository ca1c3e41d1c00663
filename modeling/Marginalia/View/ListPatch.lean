/-!
# List patches

A patch turns one list into another by insertions and removals at indices, each in the list as
the steps before it leave it. The patch that `between` finds walks the new list in order: an
element that is still ahead in the old list is kept and what stands before it is removed, an
element that is not is inserted, and at the end what is left over is removed from the back.
-/

namespace Marginalia

/-- One step of a patch. -/
inductive ListPatch.Step (α : Type) where
  | insert (index : Nat) (value : α)
  | remove (index : Nat)
  deriving DecidableEq, Repr

namespace ListPatch

variable {α : Type}

/-- A step can be made on a list of `length` elements. -/
def Step.fits (length : Nat) : Step α → Bool
  | .insert index _ => index ≤ length
  | .remove index => index < length

/-- Make a step. -/
def Step.apply (xs : List α) : Step α → List α
  | .insert index value => xs.insertIdx index value
  | .remove index => xs.eraseIdx index

/-- Make all steps in order. -/
def apply (steps : List (Step α)) (xs : List α) : List α := steps.foldl Step.apply xs

/-- Remove `count` elements from `index` on, the last first. -/
def removeTail (index count : Nat) : List (Step α) :=
  ((List.range count).map fun k => Step.remove (index + k)).reverse

/-- The patch for the part from `index` on, where `old` stands and `new` is wanted. -/
def betweenFrom [DecidableEq α] (index : Nat) (old : List α) : List α → List (Step α)
  | [] => removeTail index old.length
  | x :: new =>
    match old.findIdx? (· == x) with
    | none => .insert index x :: betweenFrom (index + 1) old new
    | some skip =>
      List.replicate skip (.remove index)
        ++ betweenFrom (index + 1) (old.drop (skip + 1)) new

/-- The patch from `old` to `new`. -/
def between [DecidableEq α] (old new : List α) : List (Step α) := betweenFrom 0 old new

end ListPatch

end Marginalia
