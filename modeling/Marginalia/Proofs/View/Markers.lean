import Marginalia.Proofs.Store.Soundness
import Marginalia.Proofs.Text.Tiling
import Marginalia.Proofs.View.Gutter

/-!
# Lines with reports

A mark occupies the lines that have one of its characters, where the break that ends a line belongs
to it; a point occupies the line of its place. Markers made anew are on the lines that an annotation
occupies whose report the filter shows, and on no others. A marker lists the reports of all these
annotations in their order, one for each, so that a report with two annotations on a line is listed
twice.
-/

namespace Marginalia.Gutter

/-- The annotation occupies line `k`: a mark by a character of its own, a point by its place. -/
def Occupies (t : Text) (k : Nat) (a : Annotation) : Prop :=
  (a.kind = .mark ∧ ∃ i < a.extent.stop, a.extent.start ≤ i ∧ Text.InLine t k i) ∨
    (a.kind = .point ∧ Text.InLine t k a.extent.start)

instance (t : Text) (k : Nat) (a : Annotation) : Decidable (Occupies t k a) :=
  inferInstanceAs (Decidable (_ ∨ _))

/-- The annotations on line `k` whose reports the filter shows, in order. -/
def shownOn (s : Store) (doc : Document) (filter : Option Filter) (k : Nat) : List Annotation :=
  s.annotations.filter fun a => Filter.shows filter s.reports a.report ∧ Occupies doc.text k a

variable {s : Store} {doc : Document} {filter : Option Filter} {k : Nat}

/-- What occupying a line means for a mark. -/
theorem occupies_of_mark {t : Text} {a : Annotation} (h : a.kind = .mark) :
    Occupies t k a ↔ ∃ i < a.extent.stop, a.extent.start ≤ i ∧ Text.InLine t k i := by
  simp only [Occupies, h, true_and, reduceCtorEq, false_and, or_false]

/-- What occupying a line means for a point. -/
theorem occupies_of_point {t : Text} {a : Annotation} (h : a.kind = .point) :
    Occupies t k a ↔ Text.InLine t k a.extent.start := by
  simp only [Occupies, h, true_and, reduceCtorEq, false_and, false_or]

/-- An annotation occupies the lines from its first line number to its last. -/
theorem occupies_iff {a : Annotation} {length : Nat} (stands : a.Stands length)
    (hk : k < doc.lineCount) : Occupies doc.text k a ↔
      (lineNumbers doc a.extent).1 ≤ k ∧ k ≤ (lineNumbers doc a.extent).2 := by
  cases hkind : a.kind with
  | mark =>
    have hwide := stands.wide hkind
    have hlast : a.extent.start ≤ a.extent.stop - 1 := Nat.le_sub_one_of_lt hwide
    simp only [lineNumbers, if_pos hwide, Document.lineAt]
    rw [← Text.exists_inLine_between_iff hlast hk, occupies_of_mark hkind]
    constructor
    · rintro ⟨i, hto, hfrom, hin⟩
      exact ⟨i, hfrom, Nat.le_sub_one_of_lt hto, hin⟩
    · rintro ⟨i, hfrom, hto, hin⟩
      exact ⟨i, by omega, hfrom, hin⟩
  | point =>
    have hnarrow := stands.narrow hkind
    simp only [lineNumbers, hnarrow, Nat.lt_irrefl, if_false, Document.lineAt]
    rw [← Text.exists_inLine_between_iff (Nat.le_refl _) hk, occupies_of_point hkind, hnarrow]
    constructor
    · exact fun hin => ⟨_, Nat.le_refl _, Nat.le_refl _, hin⟩
    · rintro ⟨i, hfrom, hto, hin⟩
      rwa [Nat.le_antisymm hfrom hto]

/-- What a marker of a line lists are the reports shown on the line. -/
theorem listedOn_line (stands : ∀ a ∈ s.annotations, a.Stands doc.length)
    (hk : k < doc.lineCount) :
    listedOn s doc filter (doc.text.line k) = (shownOn s doc filter k).map (·.report) := by
  rw [listedOn, Text.number_line hk, reportsOn, List.filter_map, List.map_map, List.filter_filter,
    shownOn]
  refine congrArg (List.map _) (List.filter_congr fun a ha => ?_)
  rw [Function.comp_apply, Bool.eq_iff_iff]
  simp only [Bool.and_eq_true, decide_eq_true_eq, occupies_iff (stands a ha) hk, and_comm]

/-- There is a marker for each line with reports to show, and no other. -/
theorem mem_markersOf_iff (stands : ∀ a ∈ s.annotations, a.Stands doc.length) {m : Marker} :
    m ∈ markersOf s doc filter ↔ ∃ k < doc.lineCount, shownOn s doc filter k ≠ [] ∧
      m = .ofReports (doc.line k).start ((shownOn s doc filter k).map (·.report)) := by
  rw [mem_markersOf_iff_listedOn]
  constructor
  · rintro ⟨line, hline, hlists, hm⟩
    obtain ⟨k, hk, rfl⟩ := Text.exists_line_eq_of_mem hline
    rw [listedOn_line stands hk] at hlists hm
    exact ⟨k, hk, fun hnone => hlists (List.map_eq_nil_iff.mpr hnone), hm⟩
  · rintro ⟨k, hk, hshown, rfl⟩
    refine ⟨doc.text.line k, Text.line_mem _ k, ?_⟩
    rw [listedOn_line stands hk]
    exact ⟨mt List.map_eq_nil_iff.mp hshown, rfl⟩

/-- Markers made anew stand on the lines that are occupied by an annotation whose report the filter
shows. The marker of a line lists the reports of these annotations in order, one for each, and shows
the worst of them, and no pop-up is due. Markers are in the order of their lines. -/
theorem rebuild_marks_occupied_lines (g : Gutter) (filter : Option Filter)
    (stands : ∀ a ∈ s.annotations, a.Stands doc.length) :
    let markers := (g.rebuild s doc filter).1.markers
    (∀ k < doc.lineCount,
      ((∃ m ∈ markers, m.lineStart = (doc.line k).start) ↔ ∃ a ∈ s.annotations,
        Filter.shows filter s.reports a.report = true ∧ Occupies doc.text k a) ∧
      ∀ m ∈ markers, m.lineStart = (doc.line k).start →
        m.reports = (shownOn s doc filter k).map (·.report) ∧
        (∃ r ∈ m.reports, r.severity = m.severity) ∧
        (∀ r ∈ m.reports, r.severity ≤ m.severity) ∧ m.due = none) ∧
      (∀ m ∈ markers, ∃ k < doc.lineCount, m.lineStart = (doc.line k).start) ∧
      markers.Pairwise fun a b => a.lineStart < b.lineStart := by
  intro markers
  have hmem {m : Marker} : m ∈ markers ↔ ∃ k < doc.lineCount, shownOn s doc filter k ≠ [] ∧
      m = .ofReports (doc.line k).start ((shownOn s doc filter k).map (·.report)) :=
    mem_markersOf_iff stands
  have hnonempty (k : Nat) : shownOn s doc filter k ≠ [] ↔ ∃ a ∈ s.annotations,
      Filter.shows filter s.reports a.report = true ∧ Occupies doc.text k a := by
    rw [shownOn, Ne, List.filter_eq_nil_iff]
    simp only [decide_eq_true_eq, not_forall, Decidable.not_not, exists_prop]
  have hsound := sound_rebuild g s doc filter
  refine ⟨fun k hk => ⟨?_, fun m hm hline => ?_⟩, fun m hm => ?_, hsound.ascends⟩
  · rw [← hnonempty]
    constructor
    · rintro ⟨m, hm, hline⟩
      obtain ⟨j, hj, hshown, rfl⟩ := hmem.mp hm
      rwa [← Text.number_eq_of_start_eq hj hk hline]
    · exact fun hshown => ⟨_, hmem.mpr ⟨k, hk, hshown, rfl⟩, rfl⟩
  · have hworst := (hsound.markers m hm).worst
    obtain ⟨j, hj, hshown, rfl⟩ := hmem.mp hm
    obtain rfl := Text.number_eq_of_start_eq hj hk hline
    exact ⟨rfl, hworst.found, hworst.bounds, rfl⟩
  · obtain ⟨k, hk, -, rfl⟩ := hmem.mp hm
    exact ⟨k, hk, rfl⟩

/-- A mark that begins between the two characters of a break is on the line that the break ends, and
a filter leaves a line without a marker. -/
theorem rebuild_marks_occupied_lines_inside_break :
    let doc : Document := .ofText "main" ['a', '\r', '\n', 'b', '\n']
    let wide : Report := ⟨.error ⟨"main", ⟨2, 4⟩⟩ "wide", .host 0⟩
    let hint : Report := ⟨⟨⟨"main", ⟨3, 4⟩⟩, .hint, "hint", none, [], none⟩, .host 1⟩
    let last : Report := ⟨⟨⟨"main", ⟨5, 5⟩⟩, .hint, "last", none, [], none⟩, .host 2⟩
    let s : Store := ⟨[⟨⟨2, 4⟩, .mark, wide⟩, ⟨⟨3, 4⟩, .mark, hint⟩, ⟨.point 5, .point, last⟩],
      none, false, 1⟩
    let markers := (empty.rebuild s doc (some fun reports => reports.take 2)).1.markers
    (∀ a ∈ s.annotations, a.Stands doc.length) ∧
      markers = [⟨0, .error, [wide], none⟩, ⟨3, .error, [wide, hint], none⟩] ∧
      (∃ m ∈ markers, m.lineStart = (doc.line 0).start) ∧
      ¬ ∃ m ∈ markers, m.lineStart = (doc.line 2).start := by
  intro doc wide hint last s markers
  have stands : ∀ a ∈ s.annotations, a.Stands doc.length := by
    simp only [s, List.forall_mem_cons, List.not_mem_nil, false_imp_iff, implies_true, and_true]
    exact ⟨⟨by decide, by decide, by decide⟩, ⟨by decide, by decide, by decide⟩,
      ⟨by decide, by decide, by decide⟩⟩
  have hlines := (rebuild_marks_occupied_lines empty
    (some fun reports => reports.take 2) stands).1
  refine ⟨stands, rfl, (hlines 0 (by decide)).1.mpr ?_, fun hmarked => ?_⟩
  · exact ⟨⟨⟨2, 4⟩, .mark, wide⟩, List.mem_cons_self, by decide, by decide⟩
  · obtain ⟨a, ha, hshown, hoccupied⟩ := (hlines 2 (by decide)).1.mp hmarked
    have hnone : ∀ a ∈ s.annotations, ¬ (Filter.shows (some fun reports => reports.take 2)
        s.reports a.report = true ∧ Occupies doc.text 2 a) := by decide
    exact hnone a ha ⟨hshown, hoccupied⟩

end Marginalia.Gutter
