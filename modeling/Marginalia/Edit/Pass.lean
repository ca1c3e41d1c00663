import Marginalia.Edit.Error
import Marginalia.Text.Basic

/-!
# Passes of simultaneous splices

A splice replaces an extent of a text by other characters. A pass is a list of splices on one
text that happen at the same time: all extents are in the coordinates of the text before the
pass. Splices are asked for in any order; `Pass.ofSplices` sorts them, joins insertions at one
offset, drops those that do nothing and refuses extents that overlap. The pass then acts in two
ways, on texts (`Pass.apply`) and on positions (`Pass.landing`).
-/

namespace Marginalia

/-- Replace the characters of `extent` by `text`. -/
structure Splice where
  extent : Extent
  text : Text
  deriving DecidableEq, Repr

namespace Splice

/-- A splice that removes nothing. -/
def isInsertion (s : Splice) : Bool := s.extent.isEmpty

/-- A splice that neither removes nor inserts. -/
def isIdle (s : Splice) : Bool := s.extent.isEmpty && s.text.isEmpty

/-- Why a splice cannot be made on a text of `length` characters, if its extent is inverted or
reaches past the end. -/
def error? (length : Nat) (s : Splice) : Option Edit.Error :=
  if s.extent.stop < s.extent.start then some (.invalidRange s.extent)
  else if length < s.extent.stop then some (.outOfBounds s.extent length)
  else none

/-- A splice can be made exactly if its extent is in order and inside the text. -/
theorem error?_eq_none_iff {length : Nat} {s : Splice} :
    s.error? length = none ↔ s.extent.start ≤ s.extent.stop ∧ s.extent.stop ≤ length := by
  unfold error?
  split
  case isTrue h => simp; omega
  case isFalse h => split <;> simp <;> omega

/-- Put `held` in front of the sorted splices that follow it: insertions at one offset become
one insertion, and a splice may not start before the one in front of it stops. -/
def joinAfter (held : Splice) : List Splice → Except Edit.Error (List Splice)
  | [] => .ok [held]
  | s :: rest =>
    if s.extent.start < held.extent.stop then .error (.overlap s.extent.start)
    else if held.isInsertion && s.isInsertion && s.extent.start == held.extent.start then
      joinAfter ⟨held.extent, held.text ++ s.text⟩ rest
    else (joinAfter s rest).map (held :: ·)

/-- Join sorted splices. -/
def join : List Splice → Except Edit.Error (List Splice)
  | [] => .ok []
  | s :: rest => joinAfter s rest

end Splice

/-- On which side of a boundary something stands. A position that meets inserted text stays
before it or moves after it; a pointer is over the character before or after a position. -/
inductive Side where
  | before
  | after
  deriving DecidableEq, Repr

/-- Where a position comes to stand: at the offset `before` or `after` of the new text, by the
side it takes. The two differ next to inserted text. A position that was strictly inside a
replaced extent is `lost`, and the offsets are then the two ends of the replacement. -/
structure Landing where
  before : Nat
  after : Nat
  lost : Bool
  deriving DecidableEq, Repr

namespace Landing

/-- A position that comes to stand at `offset` whatever its side. -/
def fixed (offset : Nat) : Landing := ⟨offset, offset, false⟩

/-- The offset on the given side. -/
def on (l : Landing) : Side → Nat
  | .before => l.before
  | .after => l.after

/-- The offset on the given side, unless the position is lost. -/
def on? (l : Landing) (side : Side) : Option Nat := if l.lost then none else some (l.on side)

end Landing

/-- Splices that happen at once on a text of `lengthBefore` characters, ascending and apart. -/
structure Pass where
  lengthBefore : Nat
  splices : List Splice
  deriving DecidableEq, Repr

namespace Pass

/-- The pass that does what the splices ask for, in whatever order they are given. The first
splice that does not fit the text is reported before any overlap. -/
def ofSplices (length : Nat) (asked : List Splice) : Except Edit.Error Pass :=
  match asked.findSome? (Splice.error? length) with
  | some error => .error error
  | none =>
    (Splice.join ((sortByExtent Splice.extent asked).filter (!·.isIdle))).map fun joined =>
      ⟨length, joined⟩

/-- The length of the text after the pass: each splice adds what it inserts and then takes away
what it removes. -/
def lengthAfter (p : Pass) : Nat :=
  p.splices.foldl
    (fun n s => n + s.text.length - (s.extent.stop - s.extent.start)) p.lengthBefore

/-- Landing of `pos` among the splices still ahead, where the old offset `old`, the end of the
splice passed last, has become `new`. A position at the end of removed text is past it. -/
def landingFrom (old new pos : Nat) : List Splice → Landing
  | [] => .fixed (new + (pos - old))
  | s :: rest =>
    let before := new + (s.extent.start - old)
    let after := before + s.text.length
    if pos < s.extent.start then .fixed (new + (pos - old))
    else if s.extent.stop < pos || (pos == s.extent.stop && s.extent.start < s.extent.stop) then
      landingFrom s.extent.stop after pos rest
    else ⟨before, after, s.extent.start < pos⟩

/-- Where a position of the old text comes to stand. A position past the end counts as the
end. -/
def landing (p : Pass) (pos : Nat) : Landing :=
  landingFrom 0 0 (min pos p.lengthBefore) p.splices

/-- Whether a splice meets the closed stretch of positions from `start` to `stop`. -/
def touches (p : Pass) (start stop : Nat) : Bool :=
  p.splices.any fun s => s.extent.start ≤ stop && start ≤ s.extent.stop

/-- The text after the pass. The last splice is made first, so that the extents of the others
still hold. -/
def apply (p : Pass) (t : Text) : Text :=
  p.splices.foldr (fun s t => t.replace s.extent.start s.extent.stop s.text) t

end Pass

end Marginalia
