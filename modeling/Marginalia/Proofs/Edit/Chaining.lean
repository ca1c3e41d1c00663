import Marginalia.Proofs.Edit.Order

/-!
# Chained edits act in turn

Chaining appends passes, so that whatever goes pass by pass takes the chained edit as the one edit
after the other: texts, positions on either side, and the stretch that touching is asked of. For
texts this needs more than the passes. The first edit has to leave a text of the length that the
second is for, or the second would refuse what the chained edit goes on with unasked.
-/

namespace Marginalia.Edit

/-- Passes touch a stretch if the first of them do, or if the others touch what the stretch has
become by then. -/
theorem touchesIn_append (start stop : Nat) (passes more : List Pass) :
    touchesIn start stop (passes ++ more) = (touchesIn start stop passes ||
      touchesIn (Pass.imageThrough .before passes start) (Pass.imageThrough .after passes stop)
        more) := by
  induction passes generalizing start stop with
  | nil => rfl
  | cons p rest ih =>
    rw [List.cons_append, touchesIn, touchesIn, ih, Bool.or_assoc]
    rfl

variable {e next last whole : Edit}

section Made

variable (made : e.andThen next = .ok whole)

include made

/-- Chained edits touch a stretch if the first does, or if the second touches the stretch from the
image of its start before inserted text to the image of its stop after it. -/
theorem touches_of_andThen (start stop : Nat) : whole.touches start stop =
    (e.touches start stop || next.touches (e.image .before start) (e.image .after stop)) := by
  obtain ⟨-, rfl⟩ := andThen_eq_ok_iff.mp made
  exact touchesIn_append start stop e.passes next.passes

/-- Chained edits change nothing exactly if neither changes anything. -/
theorem isEmpty_of_andThen : whole.isEmpty = (e.isEmpty && next.isEmpty) := by
  obtain ⟨-, rfl⟩ := andThen_eq_ok_iff.mp made
  unfold isEmpty
  cases e.passes <;> rfl

/-- Chained edits give what the second gives of what the first gives, and refuse the texts that the
first refuses. -/
theorem apply_of_andThen (formed : e.WellFormed) (t : Text) :
    whole.apply t = (e.apply t).bind next.apply := by
  obtain ⟨hmeet, rfl⟩ := andThen_eq_ok_iff.mp made
  by_cases ht : t.length = e.lengthBefore
  · have hmiddle := Pass.Chain.length_foldl_apply formed ht
    rw [apply, apply, if_pos ht, if_pos ht, Except.bind, apply, if_pos (hmiddle.trans hmeet),
      List.foldl_append]
  · rw [apply, apply, if_neg ht, if_neg ht]
    rfl

end Made

/-- Edits that do not meet cannot be chained. -/
theorem andThen_eq_error (h : e.lengthAfter ≠ next.lengthBefore) :
    e.andThen next = .error .notAdjacent := if_neg h

/-- Edits that meet can be chained. -/
theorem exists_andThen (h : e.lengthAfter = next.lengthBefore) :
    ∃ whole, e.andThen next = .ok whole := ⟨_, andThen_eq_ok_iff.mpr ⟨h, rfl⟩⟩

/-- Three edits can be chained from either end, to the same edit, or from neither. -/
theorem andThen_assoc (e next last : Edit) :
    ((e.andThen next).bind fun whole => whole.andThen last) =
      (next.andThen last).bind fun tail => e.andThen tail := by
  by_cases hmeet : e.lengthAfter = next.lengthBefore <;>
    by_cases hlast : next.lengthAfter = last.lengthBefore <;>
      simp [andThen, Except.bind, hmeet, hlast]

/-- Edits that can be made and meet act, chained, as the one after the other: on every text of the
right length, which neither refuses, on positions of either side, whether they may be lost or not,
and in what they touch. Chained they are empty exactly if both are. A third edit can be added from
either end. Edits that do not meet are a fault. -/
theorem andThen_acts_in_turn (first : e.Built) (second : next.Built) :
    (e.lengthAfter ≠ next.lengthBefore → e.andThen next = .error .notAdjacent) ∧
    (e.lengthAfter = next.lengthBefore → ∃ whole, e.andThen next = .ok whole ∧
      whole.lengthBefore = e.lengthBefore ∧ whole.lengthAfter = next.lengthAfter ∧
      (∀ t : Text, t.length = e.lengthBefore → ∃ middle after, e.apply t = .ok middle ∧
        next.apply middle = .ok after ∧ whole.apply t = .ok after) ∧
      (∀ side pos, whole.image? side pos = (e.image? side pos).bind (next.image? side)) ∧
      (∀ side pos, whole.image side pos = next.image side (e.image side pos)) ∧
      (∀ start stop, whole.touches start stop = true ↔ e.touches start stop = true ∨
        next.touches (e.image .before start) (e.image .after stop) = true) ∧
      (whole.isEmpty = true ↔ e.isEmpty = true ∧ next.isEmpty = true)) ∧
    ∀ last, ((e.andThen next).bind fun whole => whole.andThen last) =
        ((next.andThen last).bind fun tail => e.andThen tail) ∧
      (e.lengthAfter = next.lengthBefore → next.lengthAfter = last.lengthBefore →
        ∃ all, ((e.andThen next).bind fun whole => whole.andThen last) = .ok all) := by
  refine ⟨andThen_eq_error, fun hmeet => ?_, fun last => ⟨andThen_assoc e next last, ?_⟩⟩
  · obtain ⟨whole, made⟩ := exists_andThen hmeet
    have hwhole := (andThen_eq_ok_iff.mp made).2
    refine ⟨whole, made, by rw [hwhole], by rw [hwhole], fun t ht => ?_, image?_of_andThen made,
      image_of_andThen made, fun start stop => ?_, ?_⟩
    · obtain ⟨middle, hmiddle, hlength⟩ := exists_apply first.wellFormed ht
      obtain ⟨after, hafter, -⟩ := exists_apply second.wellFormed (hlength.trans hmeet)
      refine ⟨middle, after, hmiddle, hafter, ?_⟩
      rw [apply_of_andThen made first.wellFormed, hmiddle]
      exact hafter
    · rw [touches_of_andThen made, Bool.or_eq_true]
    · rw [isEmpty_of_andThen made, Bool.and_eq_true]
  · intro hmeet hlast
    obtain ⟨whole, made⟩ := exists_andThen hmeet
    have hwhole := (andThen_eq_ok_iff.mp made).2
    rw [made]
    exact exists_andThen (by rw [hwhole]; exact hlast)

/-- An insertion, a deletion that loses a position which the insertion has moved, and an insertion
at the start. The deletion touches a stretch that the first insertion does not. -/
theorem andThen_acts_in_turn_three :
    let e : Edit := ⟨5, 7, [⟨5, [⟨⟨2, 2⟩, ['x', 'y']⟩]⟩]⟩
    let next : Edit := ⟨7, 4, [⟨7, [⟨⟨3, 6⟩, []⟩]⟩]⟩
    let last : Edit := ⟨4, 5, [⟨4, [⟨⟨0, 0⟩, ['!']⟩]⟩]⟩
    e.Built ∧ next.Built ∧ e.image? .before 3 = some 5 ∧ e.touches 3 3 = false ∧
      (∃ whole, e.andThen next = .ok whole ∧ whole.image? .before 3 = none ∧
        whole.image .before 3 = 3 ∧ whole.touches 3 3 = true ∧
        ∃ after, whole.apply ['a', 'b', 'c', 'd', 'e'] = .ok after) ∧
      next.andThen e = .error .notAdjacent ∧
      ∃ all, ((next.andThen last).bind fun tail => e.andThen tail) = .ok all := by
  intro e next last
  have hfirst : ofSplice 5 ⟨⟨2, 2⟩, ['x', 'y']⟩ = .ok e := rfl
  have hsecond : ofSplice 7 ⟨⟨3, 6⟩, []⟩ = .ok next := rfl
  obtain ⟨-, acts, regroup⟩ := andThen_acts_in_turn (.ofSplice hfirst) (.ofSplice hsecond)
  obtain ⟨whole, made, -, -, htext, hlost, himage, htouches, -⟩ := acts rfl
  obtain ⟨heq, meets⟩ := regroup last
  obtain ⟨all, hall⟩ := meets rfl rfl
  obtain ⟨-, after, -, -, hafter⟩ := htext ['a', 'b', 'c', 'd', 'e'] rfl
  have hturned := (andThen_acts_in_turn (.ofSplice hsecond) (.ofSplice hfirst)).1 (by decide)
  have hmeets : whole.touches 3 3 = true := (htouches 3 3).mpr (Or.inr rfl)
  exact ⟨.ofSplice hfirst, .ofSplice hsecond, rfl, rfl,
    ⟨whole, made, hlost .before 3, himage .before 3, hmeets, after, hafter⟩, hturned, all,
    heq ▸ hall⟩

end Marginalia.Edit
