import Marginalia.Proofs.Engine.Freshness
import Marginalia.Proofs.Report.Intake
import Marginalia.Proofs.Store.Placement

/-!
# Replacing all reports

Results that are shown replace everything that was there: what the store holds and selects and what
the gutter marks then depends only on the reports taken in, the document and the filter of the
gutter, and no tooltip or pop-up is open. The reports taken in are those that belong to the
document, each as often as it comes, with one that stands in if anything was rejected.
-/

namespace Marginalia.Engine

open Annotation (ofReport? isPointSpan)

variable {en : Engine} {batches : List Batch}

/-- The reports that the engine takes of batches, with the substitute if anything is rejected. -/
def taken (en : Engine) (batches : List Batch) : List Report :=
  (en.takeIn (.ofBatches en.doc batches)).2

/-- The report that the engine makes next if it has to stand in for rejected ones. -/
def standIn (en : Engine) : Report := ⟨Intake.substitute en.doc, .minted en.nextKey⟩

/-- What is taken of batches is what fits, and then the report that stands in for the rest. -/
theorem taken_eq (en : Engine) (batches : List Batch) :
    en.taken batches = (Intake.ofBatches en.doc batches).accepted ++
      if (Intake.ofBatches en.doc batches).rejected = 0 then [] else [en.standIn] := by
  change _ ++ (Report.mint en.nextKey (Intake.additions _ _)).1 = _
  unfold Intake.additions
  split
  case isTrue => rfl
  case isFalse => rfl

/-- What has to be there of batches: the reports that belong to the document, in their order, and
then the one that stands in if anything is rejected. -/
def due (en : Engine) (batches : List Batch) : List Report :=
  (batches.flatMap (·.reports)).filter (·.Belongs en.doc) ++
    if Batch.AnyRejected en.doc batches then [en.standIn] else []

/-- What is taken of batches is what has to be there. -/
theorem taken_eq_due (en : Engine) (batches : List Batch) : en.taken batches = en.due batches := by
  have hkept : (Intake.ofBatches en.doc batches).accepted =
      (batches.flatMap (·.reports)).filter (·.Belongs en.doc) := by
    rw [Intake.accepted_ofBatches]
    exact List.filter_congr fun r _ => Bool.eq_iff_iff.mpr
      (Intake.fits_iff_belongs.trans decide_eq_true_iff.symm)
  rw [taken_eq, due, hkept, List.append_cancel_left_eq]
  by_cases hrejected : Batch.AnyRejected en.doc batches
  · rw [if_pos hrejected, if_neg fun h => Intake.rejected_ofBatches_eq_zero_iff.mp h hrejected]
  · rw [if_neg hrejected, if_pos (Intake.rejected_ofBatches_eq_zero_iff.mpr hrejected)]

/-- The reports of `next` are exactly `reports`, placed in the document of `en`, and nothing else
that shows reports is left of `en`. -/
structure Replaces (en : Engine) (reports : List Report) (next : Engine) : Prop where
  doc : next.doc = en.doc
  debounce : next.debounce = en.debounce
  annotations : next.store.annotations = Annotation.place en.doc reports
  selected : next.store.selected = Store.firstFrom next.store.annotations none 0
  gutter : next.gutter =
    ⟨Gutter.markersOf next.store en.doc en.options.gutter.markerFilter, none⟩
  hover : next.hover = none

/-- A replacement leaves the gutter at rest. -/
theorem Replaces.rests {reports : List Report} {next : Engine}
    (replaces : en.Replaces reports next) : next.gutter.Rests := by
  rw [replaces.gutter]
  exact Gutter.rests_rebuild .empty next.store en.doc en.options.gutter.markerFilter

/-- A commit of reports replaces what was there, whatever it was. -/
theorem replaces_of_commitEffects {reports : List Report} {next : Engine} {update : ViewUpdate}
    (h : en.commitEffects [.setReports reports .first] = .ok (next, update)) :
    en.Replaces reports next := by
  obtain ⟨store, hstore, rfl⟩ := eq_committed_of_commit h
  obtain ⟨-, rfl⟩ := Store.update_eq_ok_iff.mp hstore
  refine ⟨rfl, rfl, rfl, rfl, rfl, ?_⟩
  change (en.commitHover ⟨none, [.setReports reports .first]⟩ en.doc).1 = none
  unfold commitHover
  cases en.hover <;> rfl

/-- An attached engine replaces its reports by the results of a run for its version, whatever they
are. -/
theorem exists_complete_replaces {ticket : Ticket} (batches : List Batch)
    (attached : en.isAttached = true) (current : ticket.version = en.doc.version) :
    ∃ next update, en.complete ticket batches = .ok (next, .applied update) ∧
      en.Replaces (en.taken batches) next := by
  obtain ⟨next, update, happlied, -⟩ := exists_complete_applied batches attached current
  refine ⟨next, update, happlied, ?_⟩
  have hcurrent : ¬ ticket.version ≠ en.doc.version := fun hne => hne current
  rw [complete, attached, if_neg hcurrent] at happlied
  obtain ⟨⟨next', update'⟩, hcommit, heq⟩ := exists_of_map_eq_ok happlied
  obtain ⟨rfl, -⟩ := Prod.mk.inj heq
  obtain ⟨doc, debounce, annotations, selected, gutter, hover⟩ := replaces_of_commitEffects hcommit
  exact ⟨doc, debounce, annotations, selected, gutter, hover⟩

/-- Every report that is taken fits the document. -/
theorem fits_of_mem_taken {r : Report} (h : r ∈ en.taken batches) :
    Intake.fits en.doc r.span = true :=
  Intake.fits_of_mem_finish (fun _ => Intake.fits_of_mem_accepted_ofBatches) h

/-- What the reports that are taken say, by what all reports of the batches say. -/
theorem map_toDraft_taken {drafts : List Draft}
    (h : (batches.flatMap (·.reports)).map (·.toDraft) = drafts) :
    (en.taken batches).map (·.toDraft) =
      drafts.filter (Intake.fits en.doc ·.span) ++
        if Batch.dropped batches + drafts.countP (!Intake.fits en.doc ·.span) = 0 then []
        else [Intake.substitute en.doc] := by
  change ((Intake.ofBatches en.doc batches).finish en.doc en.nextKey).1.map _ = _
  rw [Intake.map_toDraft_finish, Intake.additions, Intake.accepted_ofBatches,
    Intake.rejected_ofBatches, ← h, List.filter_map, List.countP_map]
  rfl

/-- The report that stands in is placed as a point at the start of the text. -/
theorem ofReport?_standIn (en : Engine) :
    ofReport? en.doc en.standIn = some ⟨.point 0, .point, en.standIn⟩ := by
  have hspan : en.standIn.span.extent = .point 0 := rfl
  simp [ofReport?, hspan, isPointSpan, Extent.point, Extent.isEmpty]

/-- After a run for the current version, the reports are those of its batches that belong to the
document, and one that stands in for what was rejected if anything was. Each is at its own span, in
order, where equal places keep the order of the batches, and the first is selected. -/
theorem complete_keeps_what_belongs (en : Engine) (ticket : Ticket) (batches : List Batch)
    (attached : en.isAttached = true) (current : ticket.version = en.doc.version) :
    ∃ next update, en.complete ticket batches = .ok (next, .applied update) ∧
      next.store.reports.Perm (en.due batches) ∧
      en.standIn.toDraft = .error ⟨en.doc.source, .point 0⟩ "malformed report from evaluator" ∧
      (Batch.AnyRejected en.doc batches →
        ⟨.point 0, .point, en.standIn⟩ ∈ next.store.annotations) ∧
      (∀ a ∈ next.store.annotations, a.AtOwnSpan en.doc) ∧
      next.store.annotations.Pairwise (fun a b => a.extent ≤ b.extent) ∧
      (∀ x, ((next.store.annotations.filter (·.extent = x)).map (·.report)).Sublist
        (en.due batches)) ∧
      next.store.selected = next.store.annotations.head?.map Store.selectionOf := by
  obtain ⟨next, update, happlied, replaces⟩ := exists_complete_replaces batches attached current
  obtain ⟨placed, hreports, hplaced, sorted⟩ :=
    Annotation.exists_place fun r (hr : r ∈ en.taken batches) => fits_of_mem_taken hr
  rw [← replaces.annotations] at sorted
  rw [taken_eq_due] at hreports
  have hspans (a : Annotation) (ha : a ∈ next.store.annotations) :
      ofReport? en.doc a.report = some a := hplaced a (sorted.perm.mem_iff.mp ha)
  refine ⟨next, update, happlied, ?_, rfl, fun rejected => ?_,
    fun a ha => Annotation.atOwnSpan_of_ofReport? (hspans a ha), sorted.ascends,
    Annotation.sublist_of_isSortedBy hreports sorted, ?_⟩
  case refine_1 =>
    rw [← hreports]
    exact sorted.perm.map _
  case refine_2 =>
    have hdue : en.standIn ∈ en.due batches := by
      rw [due, if_pos rejected]
      exact List.mem_append_right _ (List.mem_singleton_self _)
    rw [← hreports] at hdue
    obtain ⟨a, ha, hstands⟩ := List.mem_map.mp hdue
    have hplace := hplaced a ha
    rw [hstands, ofReport?_standIn] at hplace
    rw [Option.some.inj hplace]
    exact sorted.perm.mem_iff.mpr ha
  case refine_3 => rw [replaces.selected, Store.firstFrom_none_zero]

/-- Two batches with a report that comes in both, one that covers a line break, one that reaches
past the end of the text, and one that comes before those that are already there. -/
theorem complete_keeps_what_belongs_of_two_batches :
    let doc : Document := .ofText "main" ['a', 'b', '\n', 'c']
    let late : Report := ⟨.error ⟨"main", ⟨3, 4⟩⟩ "late", .host 0⟩
    let early : Report := ⟨.error ⟨"main", ⟨0, 2⟩⟩ "early", .host 1⟩
    let outside : Report := ⟨.error ⟨"main", ⟨3, 9⟩⟩ "outside", .host 2⟩
    let lineBreak : Report := ⟨.error ⟨"main", ⟨2, 3⟩⟩ "line break", .host 3⟩
    let en := attach doc .standard 0
    let batches : List Batch := [⟨[late, early], 0⟩, ⟨[outside, early, lineBreak], 1⟩]
    en.isAttached = true ∧ en.due batches = [late, early, early, lineBreak, en.standIn] ∧
      ∃ next update, en.complete ⟨1, 0⟩ batches = .ok (next, .applied update) ∧
        next.store.reports.Perm [late, early, early, lineBreak, en.standIn] ∧
        next.store.annotations.map (·.extent) = [⟨0, 0⟩, ⟨0, 2⟩, ⟨0, 2⟩, ⟨2, 2⟩, ⟨3, 4⟩] ∧
        next.store.selected = some ⟨⟨0, 0⟩, en.standIn⟩ := by
  intro doc late early outside lineBreak en batches
  have hdue : en.due batches = [late, early, early, lineBreak, en.standIn] := by decide
  obtain ⟨next, update, happlied, hreports, -, -, -, -, -, hselected⟩ :=
    complete_keeps_what_belongs en ⟨1, 0⟩ batches rfl rfl
  have hplaced : (en.complete ⟨1, 0⟩ batches).map (·.1.store.annotations) =
      .ok [⟨⟨0, 0⟩, .point, en.standIn⟩, ⟨⟨0, 2⟩, .mark, early⟩, ⟨⟨0, 2⟩, .mark, early⟩,
        ⟨⟨2, 2⟩, .point, lineBreak⟩, ⟨⟨3, 4⟩, .mark, late⟩] := by decide +kernel
  rw [happlied] at hplaced
  have hannotations : next.store.annotations = _ := Except.ok.inj hplaced
  rw [hdue] at hreports
  rw [hannotations] at hselected
  refine ⟨rfl, hdue, next, update, happlied, hreports, ?_, hselected⟩
  rw [hannotations]
  rfl

end Marginalia.Engine
