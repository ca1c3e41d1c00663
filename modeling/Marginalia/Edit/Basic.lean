import Marginalia.Edit.Pass
import Marginalia.Fault

/-!
# Edits

An edit says how one text becomes the next, as a chain of passes. An edit made from splices has
one pass, or none if the splices do nothing; chaining two edits appends their passes. Texts and
positions are carried through an edit pass by pass, so a chain acts as its parts one after
another.
-/

namespace Marginalia

/-- A chain of passes that leads from texts of `lengthBefore` characters to texts of
`lengthAfter`. -/
structure Edit where
  lengthBefore : Nat
  lengthAfter : Nat
  passes : List Pass
  deriving DecidableEq, Repr

namespace Edit

/-- The edit that leaves a text of `length` characters as it is. -/
def identity (length : Nat) : Edit := ⟨length, length, []⟩

/-- The edit that makes the splices at the same time. -/
def ofSplices (length : Nat) (asked : List Splice) : Except Error Edit :=
  (Pass.ofSplices length asked).map fun pass =>
    ⟨length, pass.lengthAfter, if pass.splices.isEmpty then [] else [pass]⟩

/-- The edit that makes one splice. -/
def ofSplice (length : Nat) (asked : Splice) : Except Error Edit := ofSplices length [asked]

/-- An edit without passes changes no text. -/
def isEmpty (e : Edit) : Bool := e.passes.isEmpty

/-- First `e`, then `next`, which has to be an edit of the texts that `e` leads to. -/
def andThen (e next : Edit) : Except Fault Edit :=
  if e.lengthAfter = next.lengthBefore then
    .ok ⟨e.lengthBefore, next.lengthAfter, e.passes ++ next.passes⟩
  else .error .notAdjacent

/-- The offset at which `pos` comes to stand, unless some pass loses it. -/
def image? (e : Edit) (side : Side) (pos : Nat) : Option Nat :=
  e.passes.foldlM (fun pos pass => (pass.landing pos).on? side) pos

/-- The offset at which `pos` comes to stand; where a pass loses it, the end of the replacement
on its side. -/
def image (e : Edit) (side : Side) (pos : Nat) : Nat :=
  e.passes.foldl (fun pos pass => (pass.landing pos).on side) pos

/-- Whether one of the passes touches the stretch from `start` to `stop`, which grows from pass
to pass by what is inserted at its ends. -/
def touchesIn (start stop : Nat) : List Pass → Bool
  | [] => false
  | pass :: rest =>
    pass.touches start stop
      || touchesIn ((pass.landing start).before) ((pass.landing stop).after) rest

/-- Whether the edit touches the closed stretch of old positions from `start` to `stop`. -/
def touches (e : Edit) (start stop : Nat) : Bool := touchesIn start stop e.passes

/-- The text after the edit. A text of another length is refused. -/
def apply (e : Edit) (t : Text) : Except Error Text :=
  if t.length = e.lengthBefore then .ok (e.passes.foldl (fun t pass => pass.apply t) t)
  else .error (.lengthMismatch e.lengthBefore t.length)

end Edit

end Marginalia
