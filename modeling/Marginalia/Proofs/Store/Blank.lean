import Marginalia.Proofs.Store.Placement
import Marginalia.Proofs.Text.Tiling
import Marginalia.Store.Update

/-!
# Reports with nothing to mark

A span is blank when it is empty or covers one line break and nothing else. A blank report is meant
to be a point, and every other a mark over its span. The test that decides goes by the first
character of a break: it takes a span of one character with which a line ends. For breaks of one
character the two agree. At a pair of carriage return and line feed they do not: the whole pair
becomes a mark, and its first character alone becomes a point.
-/

namespace Marginalia

namespace Extent

variable {t : Text} {e : Extent}

/-- No characters, or one whole line break. -/
def Blank (t : Text) (e : Extent) : Prop := e.start = e.stop ∨ Text.BreakAt t e.start e.stop

/-- No characters, or the first character of a line break. -/
def OpensBreak (t : Text) (e : Extent) : Prop :=
  e.start = e.stop ∨ (e.stop = e.start + 1 ∧ ∃ behind, Text.BreakAt t e.start behind)

/-- The pair of carriage return and line feed, or the first character of one. -/
def OpensPair (t : Text) (e : Extent) : Prop :=
  Text.PairAt t e.start ∧ (e.stop = e.start + 1 ∨ e.stop = e.start + 2)

/-- Blank is the same as opening a break, except at pairs. -/
theorem opensBreak_iff_blank_iff : (OpensBreak t e ↔ Blank t e) ↔ ¬ OpensPair t e := by
  constructor
  · rintro hsame ⟨hpair, hstop | hstop⟩
    · have hblank := hsame.mp (Or.inr ⟨hstop, _, .pair hpair⟩)
      rcases hblank with hempty | hbreak
      · omega
      · rcases hbreak.stop_eq with ⟨-, hwide⟩ | ⟨hlone, -⟩
        · omega
        · exact hlone hpair
    · have hbreak : Text.BreakAt t e.start e.stop := by
        rw [hstop]
        exact .pair hpair
      rcases hsame.mpr (Or.inr hbreak) with hempty | ⟨hnarrow, -⟩ <;> omega
  · intro hnot
    refine or_congr_right ⟨?_, fun hbreak => ?_⟩
    · rintro ⟨hstop, behind, hbreak⟩
      rcases hbreak.stop_eq with ⟨hpair, -⟩ | ⟨-, hbehind⟩
      · exact absurd ⟨hpair, Or.inl hstop⟩ hnot
      · rwa [hstop, ← hbehind]
    · rcases hbreak.stop_eq with ⟨hpair, hwide⟩ | ⟨-, hstop⟩
      · exact absurd ⟨hpair, Or.inr hwide⟩ hnot
      · exact ⟨hstop, _, hbreak⟩

end Extent

namespace Annotation

variable {doc : Document}

/-- Of the spans in the document the test for points takes those that are empty or the first
character of a break. -/
theorem isPointSpan_iff {e : Extent} (inside : e.stop ≤ doc.length) :
    isPointSpan doc e = true ↔ e.OpensBreak doc.text := by
  rw [isPointSpan, Extent.OpensBreak, Bool.or_eq_true, Extent.isEmpty, beq_iff_eq,
    Bool.and_eq_true, beq_iff_eq, beq_iff_eq]
  refine or_congr_right ?_
  rw [eq_comm (a := e.start + 1)]
  refine and_congr_right fun hstop => ?_
  have hstart : e.start < doc.text.length := by
    rw [hstop] at inside
    exact inside
  exact Text.stop_lineAt_eq_iff hstart

end Annotation

namespace Store

/-- The store has the report, and each time as a point at the start of its span if `asPoint` holds,
or else as a mark over the span. -/
structure Shows (s : Store) (r : Report) (asPoint : Prop) : Prop where
  held : r ∈ s.reports
  point : asPoint → ∀ a ∈ s.annotations, a.report = r →
    a = ⟨.point r.span.extent.start, .point, r⟩
  mark : ¬ asPoint → ∀ a ∈ s.annotations, a.report = r → a = ⟨r.span.extent, .mark, r⟩

variable {s : Store} {doc : Document} {reports : List Report} {r : Report} {p q : Prop}

/-- A report is shown as a point under one condition only. -/
theorem Shows.iff_congr (h : s.Shows r p) : s.Shows r q ↔ (p ↔ q) := by
  constructor
  · intro h'
    obtain ⟨a, ha, hreport⟩ := List.mem_map.mp h.held
    by_cases hp : p <;> by_cases hq : q
    · exact iff_of_true hp hq
    · have heq := (h.point hp a ha hreport).symm.trans (h'.mark hq a ha hreport)
      simp at heq
    · have heq := (h.mark hp a ha hreport).symm.trans (h'.point hq a ha hreport)
      simp at heq
    · exact iff_of_false hp hq
  · intro hiff
    rwa [← propext hiff]

/-- Each report in the document is shown as a point if its span opens a break. -/
theorem shows_setReports (s : Store) (rule : SelectionRule) (given : r ∈ reports)
    (ordered : r.span.extent.start ≤ r.span.extent.stop)
    (inside : r.span.extent.stop ≤ doc.length) :
    (s.perform doc (.setReports reports rule)).Shows r (r.span.extent.OpensBreak doc.text) := by
  have hplaced := Annotation.ofReport?_of_inside ordered inside
  have hpoint := Annotation.isPointSpan_iff inside
  have hunique : ∀ a ∈ Annotation.place doc reports, a.report = r →
      Annotation.ofReport? doc r = some a := by
    intro a ha hreport
    obtain ⟨other, -, hother⟩ := Annotation.mem_place_iff.mp ha
    rwa [← hreport, Annotation.report_of_ofReport? hother]
  refine ⟨?_, fun hopens a ha hreport => ?_, fun hother a ha hreport => ?_⟩
  · exact List.mem_map.mpr ⟨_, Annotation.mem_place_iff.mpr ⟨r, given, hplaced⟩,
      Annotation.report_of_ofReport? hplaced⟩
  · rw [if_pos (hpoint.mpr hopens)] at hplaced
    exact (Option.some.inj (hplaced.symm.trans (hunique a ha hreport))).symm
  · rw [if_neg (mt hpoint.mp hother)] at hplaced
    exact (Option.some.inj (hplaced.symm.trans (hunique a ha hreport))).symm

/-- When the reports are replaced, each whose span is in the document is shown as a point at the
start of its span if that is empty or the first character of a line break, and as a mark over the
span otherwise. That is how blank spans and only these come to be points, exactly if the span is
neither a pair of carriage return and line feed nor the first character of one. -/
theorem setReports_shows_blanks_iff (s : Store) (rule : SelectionRule) (given : r ∈ reports)
    (ordered : r.span.extent.start ≤ r.span.extent.stop)
    (inside : r.span.extent.stop ≤ doc.length) :
    let next := s.perform doc (.setReports reports rule)
    next.Shows r (r.span.extent.OpensBreak doc.text) ∧
      (next.Shows r (r.span.extent.Blank doc.text) ↔ ¬ r.span.extent.OpensPair doc.text) := by
  have hshows := shows_setReports s rule given ordered inside
  exact ⟨hshows, hshows.iff_congr.trans Extent.opensBreak_iff_blank_iff⟩

/-- A carriage return by itself is blank, and a report over it is shown as a point. -/
theorem setReports_shows_blanks_iff_lone_return :
    let doc : Document := .ofText "main" ['a', '\r', '\n', 'b', '\r']
    let r : Report := ⟨.error ⟨"main", ⟨4, 5⟩⟩ "bad", .host 0⟩
    r.span.extent.Blank doc.text ∧ ¬ r.span.extent.OpensPair doc.text ∧
      (empty.perform doc (.setReports [r] .first)).Shows r (r.span.extent.Blank doc.text) := by
  intro doc r
  have hlone : ¬ Text.PairAt doc.text 4 := by decide
  have hblank : r.span.extent.Blank doc.text :=
    Or.inr (.single ⟨'\r', rfl, rfl⟩ hlone (by decide))
  have hnot : ¬ r.span.extent.OpensPair doc.text := fun h => hlone h.1
  exact ⟨hblank, hnot, (setReports_shows_blanks_iff empty .first (List.mem_singleton_self r)
    (by decide) (by decide)).2.mpr hnot⟩

/-- A report over a pair is blank and yet a mark. One over the first character of a pair is not
blank and yet a point. -/
theorem pair_shown_as_mark :
    let doc : Document := .ofText "main" ['a', '\r', '\n', 'b']
    let pair : Report := ⟨.error ⟨"main", ⟨1, 3⟩⟩ "pair", .host 0⟩
    let half : Report := ⟨.error ⟨"main", ⟨1, 2⟩⟩ "half", .host 1⟩
    let next := empty.perform doc (.setReports [pair, half] .first)
    next.annotations = [⟨.point 1, .point, half⟩, ⟨⟨1, 3⟩, .mark, pair⟩] ∧
      pair.span.extent.Blank doc.text ∧ ¬ next.Shows pair (pair.span.extent.Blank doc.text) ∧
      ¬ half.span.extent.Blank doc.text ∧
      ¬ next.Shows half (half.span.extent.Blank doc.text) := by
  intro doc pair half next
  have hpair : Text.PairAt doc.text 1 := by decide
  have hstored : next.annotations = [⟨.point 1, .point, half⟩, ⟨⟨1, 3⟩, .mark, pair⟩] := by decide
  have hblank : pair.span.extent.Blank doc.text := Or.inr (.pair hpair)
  have hwide : ¬ half.span.extent.Blank doc.text := by
    rintro (hempty | hbreak)
    · exact absurd hempty (by decide)
    · rcases hbreak.stop_eq with ⟨-, hstop⟩ | ⟨hlone, -⟩
      · exact absurd hstop (by decide)
      · exact hlone hpair
  refine ⟨hstored, hblank, fun hshows => ?_, hwide, fun hshows => ?_⟩
  · have hpoint := hshows.point hblank ⟨⟨1, 3⟩, .mark, pair⟩ (by simp [hstored]) rfl
    exact absurd hpoint (by decide)
  · have hmark := hshows.mark hwide ⟨.point 1, .point, half⟩ (by simp [hstored]) rfl
    exact absurd hmark (by decide)

end Store

end Marginalia
