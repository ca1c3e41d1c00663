import Mathlib.Data.Option.Basic
import Mathlib.Logic.Equiv.Basic
import Marginalia.Proofs.Store.Placement
import Marginalia.View.Gutter

/-!
# Reports that say the same

Where reports are placed, which of them is first and where markers stand follows from what they say.
Reports that are related one for one and say the same come out related at the same places. A filter
has a say in it where it is set: it may know reports by their keys, and then the keys that differ
must mean nothing to it.
-/

namespace Marginalia

variable {R S : Report → Report → Prop} {σ : Equiv.Perm Report.Key}

/-- Related reports at the same place. -/
structure SamePlace (R : Report → Report → Prop) (a a' : Annotation) : Prop where
  extent : a.extent = a'.extent
  kind : a.kind = a'.kind
  report : R a.report a'.report

/-- Related reports are selected at the same place. -/
structure SameSelection (R : Report → Report → Prop) (s s' : Selection) : Prop where
  extent : s.extent = s'.extent
  report : R s.report s'.report

/-- The same marker of the same line for related reports. -/
structure SameMarker (R : Report → Report → Prop) (m m' : Gutter.Marker) : Prop where
  lineStart : m.lineStart = m'.lineStart
  severity : m.severity = m'.severity
  reports : List.Forall₂ R m.reports m'.reports
  due : m.due = m'.due

/-- A marker is related as well when the reports are related more loosely. -/
theorem SameMarker.imp {m m' : Gutter.Marker} (h : ∀ r r', R r r' → S r r')
    (related : SameMarker R m m') : SameMarker S m m' :=
  ⟨related.lineStart, related.severity, related.reports.imp h, related.due⟩

/-- Related reports occupy a line. -/
theorem Gutter.reportsOn_related (number : Nat) {occupied occupied' : List ((Nat × Nat) × Report)}
    (h : List.Forall₂ (fun entry entry' => entry.1 = entry'.1 ∧ R entry.2 entry'.2) occupied
      occupied') : List.Forall₂ R (reportsOn number occupied) (reportsOn number occupied') := by
  refine List.rel_map (fun entry entry' hentry => hentry.2) (List.rel_filter ?_ h)
  intro entry entry' hentry
  change _ = true ↔ _ = true
  rw [hentry.1]

section Places

variable (alike : ∀ r r', R r r' → r.toDraft = r'.toDraft)
include alike

/-- Related reports are annotated alike. -/
theorem Annotation.ofReport?_related (doc : Document) {r r' : Report} (h : R r r') :
    Option.Rel (SamePlace R) (ofReport? doc r) (ofReport? doc r') := by
  have hspan : r.span = r'.span := congrArg Draft.span (alike r r' h)
  unfold ofReport?
  rw [hspan]
  dsimp only
  split
  case isTrue => exact .none
  case isFalse =>
    split
    case isTrue => exact .some ⟨rfl, rfl, h⟩
    case isFalse => exact .some ⟨rfl, rfl, h⟩

/-- Of related reports either both can be placed or none. -/
theorem Annotation.isSome_ofReport?_eq (doc : Document) {r r' : Report} (h : R r r') :
    (ofReport? doc r).isSome = (ofReport? doc r').isSome := by
  have hrelated := ofReport?_related alike doc h
  generalize ofReport? doc r = placed at hrelated ⊢
  generalize ofReport? doc r' = placed' at hrelated ⊢
  cases hrelated <;> rfl

/-- Related reports are placed alike. -/
theorem Annotation.place_related (doc : Document) {reports reports' : List Report}
    (h : List.Forall₂ R reports reports') :
    List.Forall₂ (SamePlace R) (place doc reports) (place doc reports') := by
  refine forall₂_sortByExtent (fun a a' related => related.extent) ?_
  exact List.rel_filterMap (fun r r' hr => ofReport?_related alike doc hr) h

/-- Markers of a line show related reports alike. -/
theorem Gutter.Marker.ofReports_related (lineStart : Nat) {reports reports' : List Report}
    (h : List.Forall₂ R reports reports') :
    SameMarker R (ofReports lineStart reports) (ofReports lineStart reports') := by
  refine ⟨rfl, ?_, h, rfl⟩
  refine List.rel_foldl (P := Eq) (fun worst worst' hworst r r' hr => ?_) rfl h
  rw [hworst, show r.severity = r'.severity from congrArg Draft.severity (alike r r' hr)]

/-- Related reports have related markers, as far as the filter shows the ones as the others. -/
theorem Gutter.markersOf_related (doc : Document) {filter : Option Filter} {s s' : Store}
    (hannotations : List.Forall₂ (SamePlace R) s.annotations s'.annotations)
    (hshown : ∀ r r', R r r' →
      Filter.shows filter s.reports r = Filter.shows filter s'.reports r') :
    List.Forall₂ (SameMarker R) (markersOf s doc filter) (markersOf s' doc filter) := by
  have hfiltered : List.Forall₂ (SamePlace R)
      (s.annotations.filter fun a => Filter.shows filter s.reports a.report)
      (s'.annotations.filter fun a => Filter.shows filter s'.reports a.report) := by
    refine List.rel_filter (fun a a' related => ?_) hannotations
    change _ = true ↔ _ = true
    rw [hshown _ _ related.report]
  have hoccupied : List.Forall₂ (fun entry entry' => entry.1 = entry'.1 ∧ R entry.2 entry'.2)
      ((s.annotations.filter fun a => Filter.shows filter s.reports a.report).map
        fun a => (lineNumbers doc a.extent, a.report))
      ((s'.annotations.filter fun a => Filter.shows filter s'.reports a.report).map
        fun a => (lineNumbers doc a.extent, a.report)) := by
    rw [List.forall₂_map_left_iff, List.forall₂_map_right_iff]
    refine hfiltered.imp fun a a' related => ⟨?_, related.report⟩
    exact congrArg (lineNumbers doc) related.extent
  unfold markersOf
  refine List.rel_filterMap (R := Eq) (fun line line' hline => ?_) (List.forall₂_refl _)
  subst hline
  have hon := reportsOn_related line.number hoccupied
  generalize reportsOn line.number _ = on at hon ⊢
  generalize reportsOn line.number _ = on' at hon ⊢
  cases hon with
  | nil => exact .none
  | cons hhead htail => exact .some (Marker.ofReports_related alike line.start (.cons hhead htail))

end Places

/-- The first of related annotations is selected alike. -/
theorem Store.firstFrom_related {annotations annotations' : List Annotation}
    (h : List.Forall₂ (SamePlace R) annotations annotations') :
    Option.Rel (SameSelection R) (firstFrom annotations none 0)
      (firstFrom annotations' none 0) := by
  cases h with
  | nil => exact .none
  | cons hhead htail => exact .some ⟨hhead.extent, hhead.report⟩

/-- The reports of annotations that carry the images of reports. -/
theorem Store.reports_eq_map {s s' : Store} {f : Report → Report}
    (h : List.Forall₂ (fun a a' => a'.report = f a.report) s.annotations s'.annotations) :
    s'.reports = s.reports.map f := by
  have hmapped : List.Forall₂ Eq (s'.annotations.map (·.report))
      (s.annotations.map (f ∘ (·.report))) := by
    rw [List.forall₂_map_left_iff, List.forall₂_map_right_iff]
    exact List.Forall₂.flip h
  rw [List.forall₂_eq_eq_eq] at hmapped
  rw [reports, hmapped, reports, List.map_map]

/-- The report under the key that has taken the place of its own. -/
def Report.rekey (σ : Equiv.Perm Report.Key) (r : Report) : Report := { r with key := σ r.key }

/-- Different reports stay different under other keys. -/
theorem Report.rekey_injective (σ : Equiv.Perm Report.Key) :
    Function.Injective (Report.rekey σ) := by
  rintro ⟨draft, key⟩ ⟨draft', key'⟩ h
  obtain ⟨rfl, hkey⟩ := Report.mk.inj h
  obtain rfl := σ.injective hkey
  rfl

/-- A report whose key stays is the same report. -/
theorem Report.rekey_of_fixed {r : Report} (h : σ r.key = r.key) : r.rekey σ = r := by
  rw [rekey, h]

namespace Filter

/-- The filter treats reports alike under keys that have changed places. -/
def Ignores (f : Filter) (σ : Equiv.Perm Report.Key) : Prop :=
  ∀ reports, f (reports.map (.rekey σ)) = (f reports).map (.rekey σ)

/-- The filter goes by what the reports of a list say, and by nothing else. -/
def ReadsNoKeys (f : Filter) : Prop :=
  ∃ keeps : List Draft → Draft → Bool,
    ∀ reports, f reports = reports.filter fun r => keeps (reports.map (·.toDraft)) r.toDraft

/-- A filter by severity goes by what the reports say. -/
theorem readsNoKeys_atLeast (least : Severity) : (atLeast least).ReadsNoKeys :=
  ⟨fun _ draft => least ≤ draft.severity, fun _ => rfl⟩

/-- A filter that goes by what the reports say does not look at keys. -/
theorem ReadsNoKeys.ignores {f : Filter} (h : f.ReadsNoKeys) (σ : Equiv.Perm Report.Key) :
    f.Ignores σ := by
  obtain ⟨keeps, hf⟩ := h
  intro reports
  rw [hf, hf, List.filter_map, List.map_map]
  rfl

/-- A report is shown under one key as under the other. -/
theorem shows_rekey {f : Filter} (h : f.Ignores σ) (reports : List Report) (r : Report) :
    shows (some f) (reports.map (.rekey σ)) (r.rekey σ) = shows (some f) reports r := by
  change (f (reports.map (.rekey σ))).contains (r.rekey σ) = (f reports).contains r
  rw [h reports, Bool.eq_iff_iff, List.contains_iff_mem, List.contains_iff_mem]
  exact List.mem_map_of_injective (Report.rekey_injective σ)

/-- Where a filter goes by what the reports say, lists that say the same are narrowed alike. -/
theorem shows_congr {f : Filter} (h : f.ReadsNoKeys) {reports reports' : List Report}
    {r r' : Report} (hdrafts : reports.map (·.toDraft) = reports'.map (·.toDraft))
    (hdraft : r.toDraft = r'.toDraft) (hmem : r ∈ reports ↔ r' ∈ reports') :
    shows (some f) reports r = shows (some f) reports' r' := by
  obtain ⟨keeps, hf⟩ := h
  change (f reports).contains r = (f reports').contains r'
  rw [hf, hf, Bool.eq_iff_iff, List.contains_iff_mem, List.contains_iff_mem, List.mem_filter,
    List.mem_filter, hmem, hdrafts, hdraft]

end Filter

end Marginalia
