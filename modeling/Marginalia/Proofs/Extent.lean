import Mathlib.Data.List.Forall2
import Marginalia.Extent

/-!
# Sorting by extent

What a sort by extent gives is said without the sort itself: the same elements, ascending, and
those at any one extent in the order in which they were given. Lists that are related element by
element, and go by the same extents, are sorted alike.
-/

namespace Marginalia

namespace Extent

/-- No extent is below itself. -/
theorem lt_irrefl (a : Extent) : ¬ a < a := not_lt.mpr (le_refl a)

/-- An extent comes before those that it is below. -/
theorem le_of_lt {a b : Extent} (h : a < b) : a ≤ b := by
  rw [le_def]
  rw [lt_def] at h
  omega

/-- Not to come before an extent is to be above it. -/
theorem not_le {a b : Extent} : ¬ a ≤ b ↔ b < a := by
  rw [← not_lt, Decidable.not_not]

/-- Of two different extents in order, the one is below the other. -/
theorem lt_of_le_of_ne {a b : Extent} (h : a ≤ b) (hne : a ≠ b) : a < b :=
  Decidable.not_not.mp fun hlt => hne (le_antisymm h (not_lt.mp hlt))

end Extent

variable {α β : Type} {extent : α → Extent}

/-- `sorted` has the elements of `xs` in the order of their extents, and those at one extent in the
order of `xs`. -/
structure IsSortedBy (extent : α → Extent) (xs sorted : List α) : Prop where
  perm : sorted.Perm xs
  ascends : sorted.Pairwise fun a b => extent a ≤ extent b
  ties : ∀ e, sorted.filter (extent · = e) = xs.filter (extent · = e)

/-- Insertion puts an element in front of those at its own extent. -/
theorem filter_insertByExtent (extent : α → Extent) (x : α) (xs : List α) (e : Extent) :
    (insertByExtent extent x xs).filter (extent · = e) = (x :: xs).filter (extent · = e) := by
  induction xs with
  | nil => rfl
  | cons y rest ih =>
    rw [insertByExtent]
    split
    case isTrue => rfl
    case isFalse hafter =>
      rw [List.filter_cons, ih]
      by_cases hx : extent x = e
      · -- the two are at different extents, so that at most one of them is kept
        have hy : extent y ≠ e := fun hy => hafter (by rw [hx, hy]; exact Extent.le_refl e)
        simp [hx, hy]
      · simp [List.filter_cons, hx]

/-- A sort keeps the order of elements at one extent. -/
theorem filter_sortByExtent (extent : α → Extent) (xs : List α) (e : Extent) :
    (sortByExtent extent xs).filter (extent · = e) = xs.filter (extent · = e) := by
  induction xs with
  | nil => rfl
  | cons x rest ih =>
    change (insertByExtent extent x (sortByExtent extent rest)).filter _ = _
    rw [filter_insertByExtent, List.filter_cons, List.filter_cons, ih]

/-- What a sort gives. -/
theorem isSortedBy_sortByExtent (extent : α → Extent) (xs : List α) :
    IsSortedBy extent xs (sortByExtent extent xs) :=
  ⟨sortByExtent_perm extent xs, sortByExtent_pairwise extent xs, filter_sortByExtent extent xs⟩

/-- A part of a list is sorted by taking the same part of the sorted list. -/
theorem IsSortedBy.filter {xs sorted : List α} (h : IsSortedBy extent xs sorted) (p : α → Bool) :
    IsSortedBy extent (xs.filter p) (sorted.filter p) where
  perm := h.perm.filter p
  ascends := h.ascends.filter p
  ties e := by
    have hcomm (ys : List α) : (ys.filter p).filter (extent · = e) =
        (ys.filter (extent · = e)).filter p := by simp only [List.filter_filter, Bool.and_comm]
    rw [hcomm, hcomm, h.ties]

/-- The first of an ascending list has an extent that occurs in every list of the same ties, so that
it is the least there, too. -/
theorem extent_le_of_ties {x y : α} {rest others : List α}
    (ascends : (y :: others).Pairwise fun a b => extent a ≤ extent b)
    (ties : ∀ e, (x :: rest).filter (extent · = e) = (y :: others).filter (extent · = e)) :
    extent y ≤ extent x := by
  have hx : x ∈ (x :: rest).filter (extent · = extent x) := by simp
  rw [ties, List.mem_filter] at hx
  rcases List.mem_cons.mp hx.1 with rfl | hmem
  · exact Extent.le_refl _
  · exact List.rel_of_pairwise_cons ascends hmem

/-- Ascending lists are equal if they have the same elements in the same order at each extent. -/
theorem eq_of_ascending_of_ties {xs ys : List α}
    (hxs : xs.Pairwise fun a b => extent a ≤ extent b)
    (hys : ys.Pairwise fun a b => extent a ≤ extent b)
    (ties : ∀ e, xs.filter (extent · = e) = ys.filter (extent · = e)) : xs = ys := by
  induction xs generalizing ys with
  | nil =>
    cases ys with
    | nil => rfl
    | cons y others => simpa using ties (extent y)
  | cons x rest ih =>
    cases ys with
    | nil => simpa using ties (extent x)
    | cons y others =>
      have heq : extent x = extent y :=
        Extent.le_antisymm (extent_le_of_ties hxs fun e => (ties e).symm)
          (extent_le_of_ties hys ties)
      have hhead := ties (extent x)
      rw [List.filter_cons_of_pos (by simp), List.filter_cons_of_pos (by simp [heq])] at hhead
      obtain rfl : x = y := (List.cons.inj hhead).1
      have hrest (e : Extent) : rest.filter (extent · = e) = others.filter (extent · = e) := by
        have htie := ties e
        rw [List.filter_cons, List.filter_cons] at htie
        split at htie
        case isTrue => exact (List.cons.inj htie).2
        case isFalse => exact htie
      rw [ih hxs.of_cons hys.of_cons hrest]

variable {P : α → β → Prop} {extent' : β → Extent}

/-- Insertion relates what was related before if it goes by the same extents. -/
theorem forall₂_insertByExtent (hextent : ∀ x y, P x y → extent x = extent' y) {x : α} {y : β}
    (hxy : P x y) {xs : List α} {ys : List β} (h : List.Forall₂ P xs ys) :
    List.Forall₂ P (insertByExtent extent x xs) (insertByExtent extent' y ys) := by
  induction h with
  | nil => exact .cons hxy .nil
  | @cons x' y' xs ys hhead htail ih =>
    rw [insertByExtent, insertByExtent, hextent x y hxy, hextent x' y' hhead]
    split
    case isTrue => exact .cons hxy (.cons hhead htail)
    case isFalse => exact .cons hhead ih

/-- A sort relates what was related before if it goes by the same extents. -/
theorem forall₂_sortByExtent (hextent : ∀ x y, P x y → extent x = extent' y) {xs : List α}
    {ys : List β} (h : List.Forall₂ P xs ys) :
    List.Forall₂ P (sortByExtent extent xs) (sortByExtent extent' ys) := by
  induction h with
  | nil => exact .nil
  | cons hhead htail ih => exact forall₂_insertByExtent hextent hhead ih

end Marginalia
