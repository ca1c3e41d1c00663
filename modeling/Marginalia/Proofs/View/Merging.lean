import Mathlib.Data.List.Nodup
import Mathlib.Data.List.Pairwise
import Marginalia.Proofs.Store.Distinct
import Marginalia.Proofs.View.Gutter

/-!
# Markers that come together

An edit takes each marker to the start of a line, or loses it. The markers after the edit are one
for each line that markers are taken to. It lists what these list, one after another in their
order, and nothing is left out. So a report is listed twice on a line after the edit if two of the
markers that are taken there list it.
-/

namespace Marginalia.Gutter

open Annotation (carryAll mem_map_report_carryAll_iff)

/-- The start of the line that an edit takes a marker to, unless it loses it. `after` is the edited
document. -/
def Marker.lineAfter? (m : Marker) (e : Edit) (after : Document) : Option Nat :=
  (e.image? .after m.lineStart).map fun offset => (after.lineAt offset).start

/-- The markers that an edit takes to the line that starts at `lineStart`. -/
def takenTo (g : Gutter) (e : Edit) (after : Document) (lineStart : Nat) : List Marker :=
  g.markers.filter (·.lineAfter? e after = some lineStart)

/-- The edit takes markers to a line and drops every annotation whose report they list. -/
def Strands (g : Gutter) (annotations : List Annotation) (e : Edit) (after : Document) : Prop :=
  ∃ lineStart, g.takenTo e after lineStart ≠ [] ∧
    ∀ m ∈ g.takenTo e after lineStart, ∀ a ∈ annotations, a.report ∈ m.reports → a.carry? e = none

/-- The edit takes two markers that list one report to one line. -/
def Joins (g : Gutter) (e : Edit) (after : Document) : Prop :=
  ∃ m ∈ g.markers, ∃ other ∈ g.markers, m.lineStart < other.lineStart ∧
    (∃ lineStart, m.lineAfter? e after = some lineStart ∧
      other.lineAfter? e after = some lineStart) ∧
    ∃ r ∈ m.reports, r ∈ other.reports

variable {g : Gutter} {e : Edit} {before after : Document} {markers : List Marker}
  {m merged : Marker} {lineStart : Nat}

/-- A marker that is carried changes its line and nothing else. -/
theorem carryMarker?_eq (e : Edit) (after : Document) (m : Marker) :
    carryMarker? e after m = (m.lineAfter? e after).map fun lineStart => { m with lineStart } := by
  rw [Marker.lineAfter?, Option.map_map]
  rfl

/-- A marker lists what the marker that was held and those behind it on its line listed. -/
theorem reports_of_mem_mergeAfter {held : Marker}
    (ordered : (held :: markers).Pairwise fun a b => a.lineStart ≤ b.lineStart)
    (hm : m ∈ mergeAfter held markers) :
    m.reports = ((held :: markers).filter (·.lineStart = m.lineStart)).flatMap (·.reports) := by
  induction markers generalizing held with
  | nil =>
    obtain rfl := List.mem_singleton.mp hm
    simp
  | cons next rest ih =>
    obtain ⟨hheld, hrest⟩ := List.pairwise_cons.mp ordered
    obtain ⟨hnext, hbehind⟩ := List.pairwise_cons.mp hrest
    rw [mergeAfter] at hm
    split at hm
    case isTrue hsame =>
      have hordered : (held.absorb next :: rest).Pairwise fun a b => a.lineStart ≤ b.lineStart :=
        List.pairwise_cons.mpr ⟨(List.forall_mem_cons.mp hheld).2, hbehind⟩
      rw [ih hordered hm]
      -- the held marker and the next are on the line of `m` both, or neither is
      by_cases hline : held.lineStart = m.lineStart
      · simp [Marker.absorb, hline, ← hsame]
      · simp [Marker.absorb, hline, ← hsame]
    case isFalse hother =>
      have hlt : held.lineStart < next.lineStart :=
        Nat.lt_of_le_of_ne (hheld next List.mem_cons_self) hother
      have hahead : ∀ later ∈ next :: rest, held.lineStart < later.lineStart := by
        intro later h
        rcases List.mem_cons.mp h with rfl | h
        · exact hlt
        · exact Nat.lt_of_lt_of_le hlt (hnext later h)
      rcases List.mem_cons.mp hm with rfl | hm
      · have hnone : (next :: rest).filter (·.lineStart = m.lineStart) = [] :=
          List.filter_eq_nil_iff.mpr fun later h => by
            simpa using Nat.ne_of_gt (hahead later h)
        rw [List.filter_cons_of_pos (by simp), hnone]
        simp
      · obtain ⟨hnextAhead, hrestAhead⟩ := List.forall_mem_cons.mp hahead
        have hlater := forall_mem_mergeAfter (fun _ _ ha _ => ha) hnextAhead hrestAhead m hm
        rw [List.filter_cons_of_neg (by simpa using Nat.ne_of_lt hlater)]
        exact ih hrest hm

/-- A merged marker lists what the markers on its line listed. -/
theorem reports_of_mem_merge (ordered : markers.Pairwise fun a b => a.lineStart ≤ b.lineStart)
    (hm : m ∈ merge markers) :
    m.reports = (markers.filter (·.lineStart = m.lineStart)).flatMap (·.reports) := by
  cases markers with
  | nil => simp [merge] at hm
  | cons first rest => exact reports_of_mem_mergeAfter ordered hm

/-- The markers that come to a line list what they listed before. -/
theorem flatMap_reports_carried (markers : List Marker) (e : Edit) (after : Document)
    (lineStart : Nat) :
    ((markers.filterMap (carryMarker? e after)).filter (·.lineStart = lineStart)).flatMap
        (·.reports) =
      (markers.filter (·.lineAfter? e after = some lineStart)).flatMap (·.reports) := by
  induction markers with
  | nil => rfl
  | cons m rest ih =>
    rw [List.filterMap_cons, carryMarker?_eq]
    cases hline : m.lineAfter? e after with
    | none => simpa [hline] using ih
    | some line =>
      by_cases hsame : line = lineStart
      · simpa [hline, hsame] using ih
      · simpa [hline, hsame] using ih

/-- After an edit a marker lists what the markers that are taken to its line list. -/
theorem reports_of_mem_carry (formed : e.WellFormed)
    (ascends : g.markers.Pairwise fun a b => a.lineStart < b.lineStart)
    (hm : m ∈ (g.carry e before after).1.markers) :
    m.reports = (g.takenTo e after m.lineStart).flatMap (·.reports) := by
  rw [reports_of_mem_merge (carryMarker?_pairwise formed ascends) hm, flatMap_reports_carried]
  rfl

/-- The markers that are taken to a line are those whose line it becomes. -/
theorem mem_takenTo_iff :
    m ∈ g.takenTo e after lineStart ↔ m ∈ g.markers ∧ m.lineAfter? e after = some lineStart := by
  rw [takenTo, List.mem_filter, decide_eq_true_eq]

/-- After an edit there is a marker on each line that it takes a marker to. -/
theorem exists_mem_carry (before : Document) (hm : m ∈ g.takenTo e after lineStart) :
    ∃ merged ∈ (g.carry e before after).1.markers, merged.lineStart = lineStart := by
  obtain ⟨hheld, htaken⟩ := mem_takenTo_iff.mp hm
  have hcarried : carryMarker? e after m = some { m with lineStart } := by
    rw [carryMarker?_eq, htaken]
    rfl
  obtain ⟨merged, hmerged, hline⟩ := exists_mem_merge (List.mem_filterMap.mpr ⟨m, hheld, hcarried⟩)
  exact ⟨merged, hmerged, hline⟩

/-- After an edit each marker is on a line that a marker is taken to. -/
theorem takenTo_ne_nil_of_mem_carry (hm : m ∈ (g.carry e before after).1.markers) :
    g.takenTo e after m.lineStart ≠ [] := by
  refine forall_mem_merge (P := fun m => g.takenTo e after m.lineStart ≠ [])
    (fun _ _ htaken _ => htaken) (fun carried hcarried => ?_) m hm
  obtain ⟨old, hold, hline⟩ := List.mem_filterMap.mp hcarried
  rw [carryMarker?_eq] at hline
  obtain ⟨lineStart, htaken, rfl⟩ := Option.map_eq_some_iff.mp hline
  exact List.ne_nil_of_mem (mem_takenTo_iff.mpr ⟨hold, htaken⟩)

/-- What every marker after the edit lists is what the markers that are taken to some line list. -/
theorem forall_mem_carry_iff {P : List Report → Prop} (formed : e.WellFormed)
    (ascends : g.markers.Pairwise fun a b => a.lineStart < b.lineStart) :
    (∀ m ∈ (g.carry e before after).1.markers, P m.reports) ↔
      ∀ lineStart, g.takenTo e after lineStart ≠ [] →
        P ((g.takenTo e after lineStart).flatMap (·.reports)) := by
  constructor
  · intro h lineStart hsome
    obtain ⟨m, hm⟩ := List.exists_mem_of_ne_nil _ hsome
    obtain ⟨merged, hmerged, rfl⟩ := exists_mem_carry before hm
    rw [← reports_of_mem_carry formed ascends hmerged]
    exact h merged hmerged
  · intro h m hm
    rw [reports_of_mem_carry formed ascends hm]
    exact h m.lineStart (takenTo_ne_nil_of_mem_carry hm)

/-- After an edit every marker lists the report of an annotation that is left, exactly if the edit
strands no marker. -/
theorem forall_mem_carry_held_iff {annotations : List Annotation} (formed : e.WellFormed)
    (ascends : g.markers.Pairwise fun a b => a.lineStart < b.lineStart) :
    (∀ m ∈ (g.carry e before after).1.markers,
        ∃ r ∈ m.reports, r ∈ (carryAll e annotations).map (·.report)) ↔
      ¬ g.Strands annotations e after := by
  rw [forall_mem_carry_iff (P := fun reports =>
    ∃ r ∈ reports, r ∈ (carryAll e annotations).map (·.report)) formed ascends]
  simp only [Strands, not_exists, not_and, not_forall]
  refine forall₂_congr fun lineStart _ => ?_
  constructor
  · rintro ⟨r, hlisted, hheld⟩
    obtain ⟨m, hm, hr⟩ := List.mem_flatMap.mp hlisted
    obtain ⟨a, ha, rfl, hstays⟩ := mem_map_report_carryAll_iff.mp hheld
    exact ⟨m, hm, a, ha, hr, hstays⟩
  · rintro ⟨m, hm, a, ha, hr, hstays⟩
    exact ⟨a.report, List.mem_flatMap.mpr ⟨m, hm, hr⟩,
      mem_map_report_carryAll_iff.mpr ⟨a, ha, rfl, hstays⟩⟩

/-- After an edit no marker lists a report twice, where none did before, exactly if the edit joins
no two markers that list the same report. -/
theorem forall_mem_carry_nodup_iff (formed : e.WellFormed)
    (ascends : g.markers.Pairwise fun a b => a.lineStart < b.lineStart)
    (once : ∀ m ∈ g.markers, m.reports.Nodup) :
    (∀ m ∈ (g.carry e before after).1.markers, m.reports.Nodup) ↔ ¬ g.Joins e after := by
  rw [forall_mem_carry_iff formed ascends]
  constructor
  · rintro h ⟨m, hm, other, hother, hlt, ⟨lineStart, htaken, htaken'⟩, r, hr, hr'⟩
    have hmem := mem_takenTo_iff.mpr ⟨hm, htaken⟩
    have hmem' := mem_takenTo_iff.mpr ⟨hother, htaken'⟩
    have hapart := (List.nodup_flatMap.mp (h lineStart (List.ne_nil_of_mem hmem))).2
    have hne : m ≠ other := fun heq => Nat.ne_of_lt hlt (congrArg Marker.lineStart heq)
    have : Std.Symm (Function.onFun List.Disjoint Marker.reports) :=
      ⟨fun _ _ => List.disjoint_symm⟩
    exact hapart.forall hmem hmem' hne hr hr'
  · intro apart lineStart hsome
    refine List.nodup_flatMap.mpr ⟨fun m hm => once m (mem_takenTo_iff.mp hm).1, ?_⟩
    refine (ascends.filter _).imp_of_mem fun {m other} hm hother hlt r hr hr' => apart ?_
    obtain ⟨hheld, htaken⟩ := mem_takenTo_iff.mp hm
    obtain ⟨hheld', htaken'⟩ := mem_takenTo_iff.mp hother
    exact ⟨m, hheld, other, hheld', hlt, ⟨lineStart, htaken, htaken'⟩, r, hr, hr'⟩

/-- A marker made anew lists some of the reports of the store, in their order. -/
theorem sublist_of_mem_markersOf {s : Store} {doc : Document} {filter : Option Filter}
    (hm : m ∈ markersOf s doc filter) : m.reports ≠ [] ∧ m.reports.Sublist s.reports := by
  obtain ⟨line, -, hlists, rfl⟩ := mem_markersOf_iff_listedOn.mp hm
  refine ⟨hlists, ?_⟩
  have hshown : ((s.annotations.filter fun a => Filter.shows filter s.reports a.report).map
      (·.report)).Sublist s.reports := List.filter_sublist.map _
  refine List.Sublist.trans ?_ hshown
  rw [Marker.ofReports, listedOn, reportsOn]
  refine (List.filter_sublist.map _).trans ?_
  rw [List.map_map]
  exact .refl _

end Marginalia.Gutter
