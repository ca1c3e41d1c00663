import Marginalia.Proofs.Store.Selection

/-!
# Reports that are held once

Annotations are made one for each report and carried with their reports, and sorting moves them
about. So the reports of a store are some of those that it had, or of those that it was given, each
as often as there. A store that holds each report once holds it once after every transaction whose
sets of reports have each report once.
-/

namespace Marginalia

/-- What is made of some entries of a list, with what each is made from, is part of the list. -/
theorem map_filterMap_sublist {α β γ : Type} {make : α → Option β} {made : β → γ} {source : α → γ}
    (h : ∀ a b, make a = some b → made b = source a) (xs : List α) :
    ((xs.filterMap make).map made).Sublist (xs.map source) := by
  induction xs with
  | nil => exact .slnil
  | cons x rest ih =>
    rw [List.filterMap_cons, List.map_cons]
    split
    case h_1 => exact ih.cons _
    case h_2 y hy =>
      rw [List.map_cons, h x y hy]
      exact ih.cons_cons _

namespace Annotation

variable {e : Edit} {annotations : List Annotation} {doc : Document} {reports : List Report}

/-- The annotations after an edit are those that it carries. -/
theorem mem_carryAll_iff {b : Annotation} :
    b ∈ carryAll e annotations ↔ ∃ a ∈ annotations, a.carry? e = some b :=
  (sortByExtent_perm _ _).mem_iff.trans List.mem_filterMap

/-- A report is left by an edit exactly if one of its annotations is. -/
theorem mem_map_report_carryAll_iff {r : Report} :
    r ∈ (carryAll e annotations).map (·.report) ↔
      ∃ a ∈ annotations, a.report = r ∧ a.carry? e ≠ none := by
  rw [List.mem_map]
  constructor
  · rintro ⟨b, hb, rfl⟩
    obtain ⟨a, ha, carried⟩ := mem_carryAll_iff.mp hb
    exact ⟨a, ha, (report_of_carry? carried).symm, Option.ne_none_iff_exists'.mpr ⟨b, carried⟩⟩
  · rintro ⟨a, ha, rfl, hstays⟩
    obtain ⟨b, carried⟩ := Option.ne_none_iff_exists'.mp hstays
    exact ⟨b, mem_carryAll_iff.mpr ⟨a, ha, carried⟩, report_of_carry? carried⟩

/-- An edit leaves no report twice that was there once. -/
theorem nodup_carryAll (distinct : (annotations.map (·.report)).Nodup) (e : Edit) :
    ((carryAll e annotations).map (·.report)).Nodup := by
  have hcarried : ((annotations.filterMap (carry? e)).map (·.report)).Sublist
      (annotations.map (·.report)) :=
    map_filterMap_sublist (fun _ _ => report_of_carry?) annotations
  exact ((sortByExtent_perm _ _).map _).nodup_iff.mpr (distinct.sublist hcarried)

/-- Reports of a list without repetitions are annotated once. -/
theorem nodup_place (distinct : reports.Nodup) (doc : Document) :
    ((place doc reports).map (·.report)).Nodup := by
  have hplaced : ((reports.filterMap (ofReport? doc)).map (·.report)).Sublist (reports.map id) :=
    map_filterMap_sublist (fun _ _ => report_of_ofReport?) reports
  rw [List.map_id] at hplaced
  exact ((sortByExtent_perm _ _).map _).nodup_iff.mpr (distinct.sublist hplaced)

end Annotation

namespace Store

open Annotation (nodup_place)

variable {s next : Store} {doc : Document} {t : Transaction}

/-- Effects leave no report twice if none is and their sets have none twice. -/
theorem nodup_foldl_perform {effects : List Effect} (distinct : s.reports.Nodup)
    (sets : ∀ reports rule, .setReports reports rule ∈ effects → reports.Nodup) :
    (effects.foldl (perform doc) s).reports.Nodup := by
  induction effects generalizing s with
  | nil => exact distinct
  | cons effect rest ih =>
    have hrest : ∀ reports rule, .setReports reports rule ∈ rest → reports.Nodup :=
      fun reports rule hmem => sets reports rule (List.mem_cons_of_mem _ hmem)
    cases effect with
    | setReports reports rule =>
      exact ih (nodup_place (sets reports rule List.mem_cons_self) doc) hrest
    | setPanel isOpen => exact ih distinct hrest
    | select selection => exact ih distinct hrest

/-- A transaction leaves no report twice if none is and its sets have none twice. -/
theorem nodup_update (distinct : s.reports.Nodup)
    (sets : ∀ reports rule, .setReports reports rule ∈ t.effects → reports.Nodup)
    (h : s.update t doc = .ok next) : next.reports.Nodup := by
  have hedited : (s.edited t).reports.Nodup := by
    unfold edited
    split
    case h_1 e _ => exact Annotation.nodup_carryAll distinct e
    case h_2 => exact distinct
  obtain ⟨version, rfl⟩ := exists_eq_of_update h
  exact nodup_foldl_perform hedited sets

end Store

end Marginalia
