import Marginalia.Proofs.Extent
import Marginalia.Report.Intake
import Marginalia.Store.Basic

/-!
# Where reports are placed

Reports that fit a document are each placed once, at their own span, and then sorted by extent,
where reports at one extent stay in the order in which they were given. The first of them is the one
that is selected when nothing else speaks for another.
-/

namespace Marginalia

namespace Annotation

variable {doc : Document} {reports : List Report}

/-- A report is annotated as itself. -/
theorem report_of_ofReport? {r : Report} {a : Annotation} (h : ofReport? doc r = some a) :
    a.report = r := by
  unfold ofReport? at h
  dsimp only at h
  split at h
  case isTrue => simp at h
  case isFalse =>
    split at h <;>
    · obtain rfl := Option.some.inj h
      rfl

/-- The annotation is where its report says: a point at the start of the span if there is nothing to
mark there, and otherwise a mark on the span. -/
structure AtOwnSpan (a : Annotation) (doc : Document) : Prop where
  kind : a.kind = .point ↔ isPointSpan doc a.report.span.extent = true
  mark : a.kind = .mark → a.extent = a.report.span.extent
  point : a.kind = .point → a.extent = .point a.report.span.extent.start

/-- Reports are annotated where they say. -/
theorem atOwnSpan_of_ofReport? {r : Report} {a : Annotation} (h : ofReport? doc r = some a) :
    a.AtOwnSpan doc := by
  unfold ofReport? at h
  dsimp only at h
  split at h
  case isTrue => simp at h
  case isFalse =>
    split at h
    case isTrue hpoint =>
      obtain rfl := Option.some.inj h
      exact ⟨iff_of_true rfl hpoint, nofun, fun _ => rfl⟩
    case isFalse hmark =>
      obtain rfl := Option.some.inj h
      exact ⟨iff_of_false nofun hmark, fun _ => rfl, nofun⟩

/-- What is placed are the annotations of the reports that have one. -/
theorem mem_place_iff {a : Annotation} :
    a ∈ place doc reports ↔ ∃ r ∈ reports, ofReport? doc r = some a := by
  rw [place, (sortByExtent_perm _ _).mem_iff, List.mem_filterMap]

/-- The annotation of a report whose span is in the document. -/
theorem ofReport?_of_inside {r : Report} (ordered : r.span.extent.start ≤ r.span.extent.stop)
    (inside : r.span.extent.stop ≤ doc.length) :
    ofReport? doc r = some (if isPointSpan doc r.span.extent then
      ⟨.point r.span.extent.start, .point, r⟩ else ⟨r.span.extent, .mark, r⟩) := by
  have hfits : ¬ (decide (r.span.extent.stop < r.span.extent.start) ||
      decide (doc.length < r.span.extent.stop)) = true := by
    simp
    omega
  unfold ofReport?
  dsimp only
  rw [if_neg hfits]
  split <;> rfl

/-- A report that fits the document is annotated. -/
theorem exists_ofReport?_of_fits {r : Report} (h : Intake.fits doc r.span = true) :
    ∃ a, ofReport? doc r = some a := by
  simp only [Intake.fits, Bool.and_eq_true, decide_eq_true_eq] at h
  exact ⟨_, ofReport?_of_inside h.1.1 h.1.2⟩

/-- Reports that fit are placed one for one, each where it belongs by itself, and sorted. -/
theorem exists_place (h : ∀ r ∈ reports, Intake.fits doc r.span = true) :
    ∃ placed : List Annotation, placed.map (·.report) = reports ∧
      (∀ a ∈ placed, ofReport? doc a.report = some a) ∧
      IsSortedBy extent placed (place doc reports) := by
  refine ⟨reports.filterMap (ofReport? doc), ?_, fun a ha => ?_, isSortedBy_sortByExtent _ _⟩
  · induction reports with
    | nil => rfl
    | cons r rest ih =>
      obtain ⟨hr, hrest⟩ := List.forall_mem_cons.mp h
      obtain ⟨a, ha⟩ := exists_ofReport?_of_fits hr
      rw [List.filterMap_cons_some ha, List.map_cons, report_of_ofReport? ha, ih hrest]
  · obtain ⟨r, -, hr⟩ := List.mem_filterMap.mp ha
    rw [report_of_ofReport? hr, hr]

/-- When placed reports are sorted, those at one extent stand in the order in which they were
given. -/
theorem sublist_of_isSortedBy {placed sorted : List Annotation}
    (hreports : placed.map (·.report) = reports) (h : IsSortedBy extent placed sorted)
    (x : Extent) :
    ((sorted.filter (·.extent = x)).map (·.report)).Sublist reports := by
  rw [h.ties x, ← hreports]
  exact List.filter_sublist.map _

end Annotation

/-- The first annotation of any report, from the start of the text on, is the first of all. -/
theorem Store.firstFrom_none_zero (annotations : List Annotation) :
    firstFrom annotations none 0 = annotations.head?.map selectionOf := by
  cases annotations with
  | nil => rfl
  | cons a rest => simp [firstFrom]

end Marginalia
