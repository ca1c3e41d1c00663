import Mathlib.Data.Nat.PSub
import Marginalia.Proofs.Edit.Image

/-!
# Positions keep their order

Images of positions do not pass each other and stay inside the edited text. Where a position has no
exact image, some pass finds it strictly inside what a splice takes away. The offset at which a
position lands can also be counted by what the splices in front of it take away and put in: what is
taken away lies in front of the position, so that no difference in this count is below zero.
-/

namespace Marginalia

namespace Pass

open Splice

/-- Landing of `pos` among the splices still ahead, counted by what the splices in front of it have
taken away and put in, unless a difference is below zero. -/
def countFrom? (removed added pos : Nat) : List Splice → Option Landing
  | [] => (pos.psub removed).map fun kept => .fixed (kept + added)
  | s :: rest =>
    if pos < s.extent.start then (pos.psub removed).map fun kept => .fixed (kept + added)
    else if s.extent.stop < pos || (pos == s.extent.stop && s.extent.start < s.extent.stop) then
      (s.extent.stop.psub s.extent.start).bind fun gone =>
        countFrom? (removed + gone) (added + s.text.length) pos rest
    else (s.extent.start.psub removed).map fun kept =>
      ⟨kept + added, kept + added + s.text.length, s.extent.start < pos⟩

/-- Where a position of the old text comes to stand, counted. -/
def count? (p : Pass) (pos : Nat) : Option Landing :=
  countFrom? 0 0 (min pos p.lengthBefore) p.splices

variable {old new removed added pos : Nat} {s : Splice} {rest splices : List Splice}

/-- In front of the next splice a position is counted back by what was taken away and on by what was
put in. -/
theorem countFrom?_of_lt (h : pos < s.extent.start) (hremoved : removed ≤ pos) :
    countFrom? removed added pos (s :: rest) = some (.fixed (pos - removed + added)) := by
  rw [countFrom?, if_pos h, Nat.psub_eq_sub hremoved, Option.map_some]

/-- Behind the next splice, or at the end of what it takes away, the splice counts. -/
theorem countFrom?_of_past (hordered : s.extent.start ≤ s.extent.stop) (h : s.Before pos) :
    countFrom? removed added pos (s :: rest) =
      countFrom? (removed + s.removedLength) (added + s.text.length) pos rest := by
  rw [countFrom?, if_neg (by omega), if_pos (by simpa using h), Nat.psub_eq_sub hordered,
    Option.bind_some]
  rfl

/-- Elsewhere the start of the next splice is counted. -/
theorem countFrom?_of_meets (hstart : ¬ pos < s.extent.start) (hmeets : ¬ s.Before pos)
    (hremoved : removed ≤ s.extent.start) :
    countFrom? removed added pos (s :: rest) =
      some ⟨s.extent.start - removed + added, s.extent.start - removed + added + s.text.length,
        s.extent.start < pos⟩ := by
  rw [countFrom?, if_neg hstart, if_neg (by simpa using hmeets), Nat.psub_eq_sub hremoved,
    Option.map_some]

/-- For splices in line the count comes to where the walk leads, as long as no more was taken away
than there is in front of `old`. -/
theorem countFrom?_eq {length : Nat} (h : InLine old length splices) (hpos : old ≤ pos)
    (hremoved : removed ≤ old) (hnew : new + removed = old + added) :
    countFrom? removed added pos splices = some (landingFrom old new pos splices) := by
  induction splices generalizing old new removed added with
  | nil =>
    have hoffset : pos - removed + added = new + (pos - old) := by omega
    rw [countFrom?, Nat.psub_eq_sub (by omega), Option.map_some, landingFrom_nil, hoffset]
  | cons s rest ih =>
    obtain ⟨hstart, hordered, -⟩ := h.head
    by_cases hlt : pos < s.extent.start
    · have hoffset : pos - removed + added = new + (pos - old) := by omega
      rw [countFrom?_of_lt hlt (by omega), landingFrom_of_lt hlt, hoffset]
    by_cases hpast : s.Before pos
    · rw [countFrom?_of_past hordered hpast, landingFrom_of_past hordered hpast]
      have hgone : s.removedLength = s.extent.stop - s.extent.start := rfl
      exact ih h.tail (by omega) (by omega) (by omega)
    · have hoffset : s.extent.start - removed + added = new + (s.extent.start - old) := by omega
      rw [countFrom?_of_meets hlt hpast (by omega), landingFrom_of_meets hlt hpast, hoffset]

variable {p : Pass}

/-- No difference in the count is below zero, and the count comes to where the position lands. -/
theorem count?_eq (h : p.WellFormed) (pos : Nat) : p.count? pos = some (p.landing pos) :=
  countFrom?_eq h.inLine (Nat.zero_le _) (Nat.le_refl 0) rfl

/-- The position is strictly inside what a splice of the pass takes away. -/
def Covers (p : Pass) (pos : Nat) : Prop :=
  ∃ s ∈ p.splices, s.extent.start < pos ∧ pos < s.extent.stop

/-- Exactly the positions strictly inside what is taken away are lost. -/
theorem landing_lost_iff (h : p.WellFormed) (pos : Nat) :
    (p.landing pos).lost = true ↔ p.Covers pos := by
  rw [landing, landingFrom_lost_iff h.inLine]
  refine exists_congr fun s => and_congr_right fun hs => ?_
  have hfits := h.inLine.inside s hs
  omega

/-- Where passes carry a position, by its side also where one of them loses it. -/
def imageThrough (side : Side) (passes : List Pass) (pos : Nat) : Nat :=
  passes.foldl (fun pos p => (p.landing pos).on side) pos

/-- Passes lose a position exactly if one of them covers it where the passes before it carry it. -/
theorem Chain.image?_eq_none_iff {length final : Nat} {passes : List Pass}
    (h : Chain length passes final) (side : Side) (pos : Nat) :
    Edit.image? ⟨length, final, passes⟩ side pos = none ↔
      ∃ done p rest, passes = done ++ p :: rest ∧ p.Covers (imageThrough side done pos) := by
  induction h generalizing pos with
  | nil => simp [Edit.image?]
  | @cons p passes final first behind ih =>
    rw [Edit.image?, List.foldlM_cons]
    by_cases hcovers : p.Covers pos
    · have hlost : (p.landing pos).on? side = none :=
        if_pos ((landing_lost_iff first pos).mpr hcovers)
      rw [hlost]
      exact iff_of_true rfl ⟨[], p, passes, rfl, hcovers⟩
    · have hkept : (p.landing pos).on? side = some ((p.landing pos).on side) :=
        if_neg (mt (landing_lost_iff first pos).mp hcovers)
      rw [hkept]
      apply (ih _).trans
      constructor
      · rintro ⟨done, other, rest, rfl, hinside⟩
        exact ⟨p :: done, other, rest, rfl, hinside⟩
      · rintro ⟨done, other, rest, hsplit, hinside⟩
        cases done with
        | nil =>
          obtain rfl := (List.cons.inj hsplit).1
          exact absurd hinside hcovers
        | cons q done =>
          obtain ⟨rfl, rfl⟩ := List.cons.inj hsplit
          exact ⟨done, other, rest, rfl, hinside⟩

/-- The passes of a chain are well formed. -/
theorem Chain.wellFormed_of_mem {length final : Nat} {passes : List Pass}
    (h : Chain length passes final) : ∀ p ∈ passes, p.WellFormed := by
  induction h with
  | nil => exact List.forall_mem_nil _
  | cons first _ ih => exact List.forall_mem_cons.mpr ⟨first, ih⟩

end Pass

namespace Edit

/-- Images of positions, of every edit that can be made, do not pass each other on either side, are
before inserted text no further than after it, and are inside the edited text. An exact image is the
image, and there is none exactly if one of the passes finds the position strictly inside what a
splice takes away. Counted along the splices, no image takes a difference below zero. -/
theorem image_keeps_order {e : Edit} (built : e.Built) :
    (∀ side pos later, pos ≤ later → e.image side pos ≤ e.image side later) ∧
    (∀ pos ≤ e.lengthBefore,
      e.image .before pos ≤ e.image .after pos ∧ e.image .after pos ≤ e.lengthAfter) ∧
    (∀ side pos q, e.image? side pos = some q → e.image side pos = q) ∧
    (∀ side pos, e.image? side pos = none ↔ ∃ done p rest, e.passes = done ++ p :: rest ∧
      ∃ s ∈ p.splices, s.extent.start < Pass.imageThrough side done pos ∧
        Pass.imageThrough side done pos < s.extent.stop) ∧
    ∀ p ∈ e.passes, ∀ pos, p.count? pos = some (p.landing pos) := by
  have h := built.wellFormed
  refine ⟨fun side pos later hle => image_mono h hle side, fun pos hpos => ⟨?_, ?_⟩,
    fun side pos q => image_eq_of_image?, fun side pos => h.image?_eq_none_iff side pos, ?_⟩
  · exact image_before_le_after h pos
  · exact image_le_lengthAfter h hpos .after
  · intro p hp pos
    exact Pass.count?_eq (h.wellFormed_of_mem p hp) pos

/-- The order for an edit of two passes, of which the second loses a position that the first has
carried into what is replaced. -/
theorem image_keeps_order_two_passes :
    let first : Pass := ⟨6, [⟨⟨0, 0⟩, ['x']⟩]⟩
    let second : Pass := ⟨7, [⟨⟨2, 5⟩, ['y', 'z']⟩]⟩
    let e : Edit := ⟨6, 6, [first, second]⟩
    e.Built ∧ e.image? .before 2 = none ∧ e.image .before 2 = 2 ∧ e.image .after 2 = 4 ∧
      e.image .after 2 ≤ e.image .after 5 ∧ e.image .after 6 ≤ 6 ∧
      second.count? 3 = some ⟨2, 4, true⟩ := by
  intro first second e
  have hfirst : ofSplice 6 ⟨⟨0, 0⟩, ['x']⟩ = .ok ⟨6, 7, [first]⟩ := rfl
  have hsecond : ofSplice 7 ⟨⟨2, 5⟩, ['y', 'z']⟩ = .ok ⟨7, 6, [second]⟩ := rfl
  have built : e.Built := .andThen (.ofSplice hfirst) (.ofSplice hsecond) rfl
  obtain ⟨hmono, hinside, -, hlost, hcount⟩ := image_keeps_order built
  have hcovered : e.image? .before 2 = none :=
    (hlost .before 2).mpr ⟨[first], second, [], rfl, _, List.mem_cons_self, by decide⟩
  have hcounted : second.count? 3 = some ⟨2, 4, true⟩ := hcount second (by simp [e]) 3
  exact ⟨built, hcovered, rfl, rfl, hmono .after 2 5 (by decide), (hinside 6 (by decide)).2,
    hcounted⟩

end Edit

end Marginalia
