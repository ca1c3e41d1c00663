import Mathlib.Data.List.Induction
import Mathlib.Data.List.InsertIdx
import Marginalia.View.ListPatch

/-!
# Patches lead to the new list

The patch for two lists, made on the old one, gives the new one, also when elements repeat, and
every step of it fits the list that it finds. The part of the list that is done already stays in
front, and its length is the index at which the patch goes on: an insertion and a kept element
both join it, and what stands between it and a kept element is removed.
-/

namespace Marginalia.ListPatch

variable {α : Type} {done old new xs ys : List α}

/-- Make a step if it fits the list. -/
def Step.make? (xs : List α) (step : Step α) : Option (List α) :=
  if step.fits xs.length then some (step.apply xs) else none

/-- Make all steps in order, if each fits what the steps before it leave. -/
def make? (steps : List (Step α)) (xs : List α) : Option (List α) := steps.foldlM Step.make? xs

/-- The first step of a patch is made first. -/
@[simp] theorem apply_cons (step : Step α) (steps : List (Step α)) (xs : List α) :
    apply (step :: steps) xs = apply steps (step.apply xs) := rfl

/-- The first step of a patch has to fit the list itself. -/
@[simp] theorem make?_cons (step : Step α) (steps : List (Step α)) (xs : List α) :
    make? (step :: steps) xs = (step.make? xs).bind (make? steps) := List.foldlM_cons

/-- The steps of two patches are made one after another. -/
@[simp] theorem make?_append (steps more : List (Step α)) (xs : List α) :
    make? (steps ++ more) xs = (make? steps xs).bind (make? more) := List.foldlM_append

/-- A step that could be made is one that fits. -/
theorem Step.make?_eq_some_iff {step : Step α} :
    step.make? xs = some ys ↔ step.fits xs.length = true ∧ step.apply xs = ys := by
  rw [Step.make?]
  split
  case isTrue hfits => simp [hfits]
  case isFalse hmisfit => simp [hmisfit]

/-- A patch could be made if its first step fits and the others could be made after it. -/
theorem make?_cons_eq_some_iff {step : Step α} {rest : List (Step α)} :
    make? (step :: rest) xs = some ys ↔
      step.fits xs.length = true ∧ make? rest (step.apply xs) = some ys := by
  simp only [make?_cons, Option.bind_eq_some_iff, Step.make?_eq_some_iff]
  constructor
  · rintro ⟨next, ⟨hfits, rfl⟩, hrest⟩
    exact ⟨hfits, hrest⟩
  · rintro ⟨hfits, hrest⟩
    exact ⟨step.apply xs, ⟨hfits, rfl⟩, hrest⟩

/-- If all steps fit, the patch gives what it gives unchecked. -/
theorem apply_eq_of_make? {steps : List (Step α)} (h : make? steps xs = some ys) :
    apply steps xs = ys := by
  induction steps generalizing xs with
  | nil => exact Option.some.inj h
  | cons step rest ih =>
    have hrest := (make?_cons_eq_some_iff.mp h).2
    rw [apply_cons, ih hrest]

/-- An insertion behind what is done joins it. -/
theorem make?_insert (done rest : List α) (x : α) :
    (Step.insert done.length x).make? (done ++ rest) = some (done ++ x :: rest) := by
  have hinserted : (done ++ rest).insertIdx done.length x = done ++ x :: rest := by
    induction done with
    | nil => rfl
    | cons y done ih => exact congrArg (y :: ·) ih
  simp [Step.make?, Step.fits, Step.apply, hinserted]

/-- A removal behind what is done takes the next element away. -/
theorem make?_remove (done rest : List α) (x : α) :
    (Step.remove done.length).make? (done ++ x :: rest) = some (done ++ rest) := by
  simp [Step.make?, Step.fits, Step.apply, List.eraseIdx_append_of_length_le]

/-- Removals behind what is done take the next elements away. -/
theorem make?_replicate_remove (done skipped rest : List α) :
    make? (List.replicate skipped.length (.remove done.length)) (done ++ (skipped ++ rest)) =
      some (done ++ rest) := by
  induction skipped with
  | nil => rfl
  | cons x skipped ih =>
    rw [List.length_cons, List.replicate_succ, make?_cons, List.cons_append, make?_remove,
      Option.bind_some, ih]

/-- Removals from the back begin with the last element. -/
theorem removeTail_append_singleton (done rest : List α) (x : α) :
    removeTail done.length (rest ++ [x]).length =
      (Step.remove (done ++ rest).length : Step α) :: removeTail done.length rest.length := by
  simp [removeTail, List.range_succ]

/-- Removals from the back leave what is done. -/
theorem make?_removeTail (done rest : List α) :
    make? (removeTail done.length rest.length) (done ++ rest) = some done := by
  induction rest using List.reverseRecOn with
  | nil => exact congrArg some (List.append_nil done)
  | append_singleton rest x ih =>
    rw [removeTail_append_singleton, make?_cons, ← List.append_assoc, make?_remove,
      Option.bind_some, List.append_nil, ih]

/-- An element that is wanted next is inserted if it is not ahead; else what stands in front of it
is removed and the element kept. -/
theorem betweenFrom_cons_cases [DecidableEq α] (index : Nat) (old : List α) (x : α)
    (new : List α) :
    (x ∉ old ∧ betweenFrom index old (x :: new) =
      .insert index x :: betweenFrom (index + 1) old new) ∨
    ∃ skipped rest, old = skipped ++ x :: rest ∧ x ∉ skipped ∧
      betweenFrom index old (x :: new) =
        List.replicate skipped.length (.remove index) ++ betweenFrom (index + 1) rest new := by
  rw [betweenFrom]
  cases hfound : old.findIdx? (· == x) with
  | none =>
    refine Or.inl ⟨fun hx => ?_, rfl⟩
    simpa using List.findIdx?_eq_none_iff.mp hfound x hx
  | some skip =>
    obtain ⟨hskip, hkept, hbefore⟩ := List.findIdx?_eq_some_iff_getElem.mp hfound
    have hlength : (old.take skip).length = skip := List.length_take_of_le (Nat.le_of_lt hskip)
    refine Or.inr ⟨old.take skip, old.drop (skip + 1), ?_, fun hx => ?_, by rw [hlength]⟩
    · rw [← eq_of_beq hkept, ← List.drop_eq_getElem_cons hskip, List.take_append_drop]
    · obtain ⟨i, hi, hxi⟩ := List.mem_take_iff_getElem.mp hx
      exact hbefore i (by omega) (beq_of_eq hxi)

/-- The patch behind what is done leads to what is wanted there, and all its steps fit. -/
theorem make?_betweenFrom [DecidableEq α] (done old new : List α) :
    make? (betweenFrom done.length old new) (done ++ old) = some (done ++ new) := by
  induction new generalizing done old with
  | nil => rw [betweenFrom, make?_removeTail, List.append_nil]
  | cons x new ih =>
    have hnext : done.length + 1 = (done ++ [x]).length := by simp
    rcases betweenFrom_cons_cases done.length old x new with
      ⟨-, hpatch⟩ | ⟨skipped, rest, rfl, -, hpatch⟩
    · rw [hpatch, make?_cons, make?_insert, Option.bind_some, hnext, List.append_cons done x old,
        ih, ← List.append_cons]
    · rw [hpatch, make?_append, make?_replicate_remove, Option.bind_some, hnext,
        List.append_cons done x rest, ih, ← List.append_cons]

/-- The patch from one list to another leads there, and all its steps fit. -/
theorem make?_between [DecidableEq α] (old new : List α) :
    make? (between old new) old = some new := make?_betweenFrom [] old new

/-- The patch from one list to another leads there. -/
theorem apply_between [DecidableEq α] (old new : List α) : apply (between old new) old = new :=
  apply_eq_of_make? (make?_between old new)

end Marginalia.ListPatch
