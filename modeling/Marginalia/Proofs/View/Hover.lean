import Marginalia.Proofs.Edit.Untouched
import Marginalia.Proofs.Store.Distinct
import Marginalia.Proofs.View.UnderPointer

/-!
# Tooltips enclose what they list

A tooltip opens over the stretch from the first start to the last stop of the annotations under the
pointer, so that it encloses those of the reports that it lists. An edit moves the ends of the
stretch and of the annotations each on its side. Marks stay enclosed, since images keep the order of
positions. A point goes before inserted text and the anchor of the tooltip after it, so that only an
anchor whose line is left alone, where the two images are one, keeps its points.
-/

namespace Marginalia.Hover

open Annotation (carryAll report_of_carry? carry?_of_mark carry?_of_point)

variable {tip : Hover} {s : Store} {doc : Document} {e : Edit} {annotations : List Annotation}
  {length : Nat}

/-- The tooltip lies in a text of `length` characters and encloses every annotation of the reports
that it lists. -/
structure Encloses (tip : Hover) (annotations : List Annotation) (length : Nat) : Prop where
  ordered : tip.anchor ≤ tip.stop
  inside : tip.stop ≤ length
  covers : ∀ a ∈ annotations, a.report ∈ tip.reports →
    tip.anchor ≤ a.extent.start ∧ a.extent.stop ≤ tip.stop

/-- A tooltip that opens encloses the annotations of what it lists, if the filter only leaves
reports out and all annotations of a report are alike. -/
theorem encloses_at? {pos : Nat} {side : Side} {filter : Option Filter}
    (valid : s.Valid doc.length) (alike : s.OnePlace) (narrows : Filter.Narrows filter)
    (h : at? s doc pos side filter = some tip) : tip.Encloses s.annotations doc.length := by
  let found := s.annotations.filter fun a => covers a.extent pos side
  have hfound : ∀ a ∈ found, a ∈ s.annotations := fun a ha => (List.mem_filter.mp ha).1
  have hleast : ∀ a ∈ found,
      found.foldl (fun n a => min n a.extent.start) greatestOffset ≤ a.extent.start := by
    intro a ha
    rw [foldl_min_eq]
    exact Nat.le_trans (Nat.min_le_right _ _) (List.min?_getD_le_of_mem (List.mem_map_of_mem ha))
  have hgreatest : ∀ a ∈ found,
      a.extent.stop ≤ found.foldl (fun n a => max n a.extent.stop) 0 := by
    intro a ha
    rw [foldl_max_eq]
    have hmem : a.extent.stop ∈ found.map (·.extent.stop) := List.mem_map_of_mem ha
    exact Nat.le_trans (List.le_max?_getD_of_mem hmem) (Nat.le_max_right _ _)
  have hinside : found.foldl (fun n a => max n a.extent.stop) 0 ≤ doc.length := by
    rw [foldl_max_eq, Nat.zero_max]
    cases hmax : (found.map (·.extent.stop)).max? with
    | none => exact Nat.zero_le _
    | some stop =>
      obtain ⟨b, hb, rfl⟩ := List.mem_map.mp (List.max?_mem hmax)
      exact (valid.inside b (hfound b hb)).2
  have hlisted := narrows (found.map (·.report))
  simp only [at?] at h
  cases hshown : Filter.applyTo filter (found.map (·.report)) with
  | nil =>
    rw [hshown] at h
    contradiction
  | cons r rest =>
    rw [hshown] at h hlisted
    obtain rfl := Option.some.inj h
    obtain ⟨a, ha, -⟩ := List.mem_map.mp (hlisted.subset List.mem_cons_self)
    refine ⟨?_, hinside, fun b hb hr => ?_⟩
    · calc _ ≤ a.extent.start := hleast a ha
        _ ≤ a.extent.stop := (valid.inside a (hfound a ha)).1
        _ ≤ _ := hgreatest a ha
    · -- what is listed was found, and so were all annotations of its report
      obtain ⟨c, hc, hreport⟩ := List.mem_map.mp (hlisted.subset hr)
      obtain rfl := alike b hb c (hfound c hc) hreport.symm
      exact ⟨hleast b hc, hgreatest b hc⟩

section Carrying

/-- The stop of a tooltip that is taken along is at or behind the image of any offset of the tooltip
before inserted text. -/
theorem image_before_le_stop_carry (tip : Hover) (formed : e.WellFormed) {offset : Nat}
    (h : offset ≤ tip.stop) : e.image .before offset ≤ (tip.carry e).stop :=
  Nat.le_trans (Edit.image_mono formed h .before) (Nat.le_max_left _ _)

/-- Where an edit leaves the line of an offset alone, the images of the offset before and after
inserted text are one. -/
theorem image_before_eq_after {anchor : Nat} (formed : e.WellFormed)
    (fits : doc.length = e.lengthBefore) (inside : anchor ≤ e.lengthBefore)
    (clear : e.touches (doc.lineAt anchor).start (doc.lineAt anchor).stop = false)
    (whole : ¬ Text.SplitsPair doc.text anchor) :
    e.image .before anchor = e.image .after anchor := by
  have hbounds := Text.bounds_of_mem_lines (Text.lineAt_mem doc.text anchor)
  have hline : (doc.lineAt anchor).stop ≤ e.lengthBefore := fits ▸ hbounds.2
  have hanchor : anchor ≤ doc.length := fits ▸ inside
  have himage := Edit.image?_of_untouched formed clear hline (Text.start_lineAt_le doc.text anchor)
    (Text.le_stop_lineAt hanchor whole) .before
  exact Edit.image_eq_of_image? himage

/-- An edit that leaves the line of the anchor alone takes the tooltip along with the annotations
that it encloses. -/
theorem Encloses.carry (encloses : tip.Encloses annotations doc.length) (formed : e.WellFormed)
    (fits : doc.length = e.lengthBefore)
    (ordered : ∀ a ∈ annotations, a.extent.start ≤ a.extent.stop)
    (clear : e.touches (doc.lineAt tip.anchor).start (doc.lineAt tip.anchor).stop = false)
    (whole : ¬ Text.SplitsPair doc.text tip.anchor) :
    (tip.carry e).Encloses (carryAll e annotations) e.lengthAfter := by
  have hstop : tip.stop ≤ e.lengthBefore := fits ▸ encloses.inside
  have hanchor : tip.anchor ≤ e.lengthBefore := Nat.le_trans encloses.ordered hstop
  have hone := image_before_eq_after formed fits hanchor clear whole
  refine ⟨Nat.le_max_right _ _, ?_, fun b hb hr => ?_⟩
  · exact Nat.max_le.mpr ⟨Edit.image_le_lengthAfter formed hstop .before,
      Edit.image_le_lengthAfter formed hanchor .after⟩
  · obtain ⟨a, ha, carried⟩ := Annotation.mem_carryAll_iff.mp hb
    rw [report_of_carry? carried] at hr
    obtain ⟨hfrom, hto⟩ := encloses.covers a ha hr
    cases hkind : a.kind with
    | mark =>
      rw [carry?_of_mark hkind] at carried
      split at carried
      case isTrue =>
        obtain rfl := Option.some.inj carried
        exact ⟨Edit.image_mono formed hfrom .after, image_before_le_stop_carry tip formed hto⟩
      case isFalse => simp at carried
    | point =>
      rw [carry?_of_point hkind] at carried
      obtain ⟨offset, himage, rfl⟩ := Option.map_eq_some_iff.mp carried
      obtain rfl := Edit.image_eq_of_image? himage
      refine ⟨?_, image_before_le_stop_carry tip formed (Nat.le_trans (ordered a ha) hto)⟩
      -- the two images of the anchor are one, and the point is not in front of it
      calc e.image .after tip.anchor
        _ = e.image .before tip.anchor := hone.symm
        _ ≤ e.image .before a.extent.start := Edit.image_mono formed hfrom .before

end Carrying

end Marginalia.Hover
