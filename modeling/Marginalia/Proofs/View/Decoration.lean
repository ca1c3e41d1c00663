import Marginalia.Proofs.Text.Tiling
import Marginalia.Proofs.View.Gutter
import Marginalia.View.Decoration

/-!
# The text and the gutter show the same reports

What is drawn in the text is derived from the annotations one by one, the markers of the gutter line
by line. Both ask one and the same question of an annotation, whether its report is among those that
the filter returns for all reports, so whatever the filter returns they come to show the same
reports: each annotation is on some line, at least on the one where it starts, and a marker lists
nothing else.
-/

namespace Marginalia

/-- A filter shows a report of the list exactly if it is in what the filter returns for the list. -/
theorem Filter.shows_iff_mem_applyTo {filter : Option Filter} {reports : List Report} {r : Report}
    (h : r ∈ reports) : shows filter reports r = true ↔ r ∈ applyTo filter reports := by
  cases filter with
  | none => exact iff_of_true rfl h
  | some f => exact List.contains_iff_mem

namespace Decoration

/-- The report that a decoration is drawn for; the highlight is drawn for none. -/
def report? : Decoration → Option Report
  | mark _ _ _ r | point _ _ _ r => some r
  | active _ _ => none

/-- The extent over which a decoration is drawn; a point has no width. -/
def extent : Decoration → Extent
  | mark extent _ _ _ | active extent _ => extent
  | point offset _ _ _ => .point offset

/-- The decoration is the one for the annotation: a mark for a mark and a point for a point, with
its report and over its extent. -/
inductive Draws (a : Annotation) : Decoration → Prop where
  | mark (styleClass color : String) (is : a.kind = .mark) :
      Draws a (.mark a.extent styleClass color a.report)
  | point (offset : Nat) (styleClass color : String) (is : a.kind = .point)
      (stands : a.extent = .point offset) : Draws a (.point offset styleClass color a.report)

/-- The annotations whose reports are among those that the filter returns. -/
def returned (s : Store) (filter : Option Filter) : List Annotation :=
  s.annotations.filter fun a => a.report ∈ Filter.applyTo filter s.reports

variable {s : Store} {doc : Document} {filter : Option Filter} {a : Annotation} {d : Decoration}

/-- What is drawn for an annotation has its report. -/
theorem Draws.report?_eq (h : Draws a d) : d.report? = some a.report := by cases h <;> rfl

/-- What is drawn for an annotation has its extent. -/
theorem Draws.extent_eq (h : Draws a d) : d.extent = a.extent := by
  cases h with
  | mark => rfl
  | point _ _ _ _ stands => exact stands.symm

/-- The annotations to draw are those whose reports the filter returns. -/
theorem visible_eq_returned (s : Store) (filter : Option Filter) :
    visible s filter = returned s filter := by
  refine List.filter_congr fun a ha => ?_
  rw [Bool.eq_iff_iff, decide_eq_true_eq]
  exact Filter.shows_iff_mem_applyTo (List.mem_map_of_mem ha)

/-- An annotation of a valid store is drawn as what it is. -/
theorem draws_ofPlaced (valid : s.Valid doc.length) (theme : Theme) (ha : a ∈ s.annotations) :
    Draws a (ofPlaced theme a) := by
  unfold ofPlaced
  cases hkind : a.kind with
  | mark => exact .mark _ _ hkind
  | point =>
    have hstop := valid.narrow a ha hkind
    exact .point _ _ _ hkind (Extent.eq_of_start_of_stop rfl hstop.symm)

/-- Each of some annotations of a valid store is drawn once. -/
theorem forall₂_draws (valid : s.Valid doc.length) (theme : Theme) {annotations : List Annotation}
    (h : ∀ a ∈ annotations, a ∈ s.annotations) :
    List.Forall₂ Draws annotations (annotations.map (ofPlaced theme)) := by
  induction annotations with
  | nil => exact .nil
  | cons a rest ih =>
    obtain ⟨ha, hrest⟩ := List.forall_mem_cons.mp h
    exact .cons (draws_ofPlaced valid theme ha) (ih hrest)

/-- The decorations of the annotations come in the order of the store. -/
theorem pairwise_extent_of_draws {annotations : List Annotation} {placed : List Decoration}
    (ascends : annotations.Pairwise fun a b => a.extent ≤ b.extent)
    (h : List.Forall₂ Draws annotations placed) :
    placed.Pairwise fun a b => a.extent ≤ b.extent := by
  have hextents : annotations.map (·.extent) = placed.map extent := by
    induction h with
    | nil => rfl
    | cons hdraws _ ih =>
      rw [List.map_cons, List.map_cons, hdraws.extent_eq, ih (List.pairwise_cons.mp ascends).2]
  rw [← List.pairwise_map, ← hextents, List.pairwise_map]
  exact ascends

/-- The reports of the decorations are those of the annotations. -/
theorem map_report?_of_draws {annotations : List Annotation} {placed : List Decoration}
    (h : List.Forall₂ Draws annotations placed) :
    placed.map report? = annotations.map fun a => some a.report := by
  induction h with
  | nil => rfl
  | cons hdraws _ ih => rw [List.map_cons, List.map_cons, hdraws.report?_eq, ih]

/-- The extent to highlight is that of the selected report, while the panel is open and if it has
width. -/
theorem activeExtent_eq_some_iff {extent : Extent} : activeExtent s = some extent ↔
    s.panelOpen = true ∧ ∃ selection, s.selected = some selection ∧
      selection.extent.start < selection.extent.stop ∧ selection.extent = extent := by
  unfold activeExtent
  cases s.panelOpen with
  | false => simp
  | true =>
    simp only [if_true, Option.filter_eq_some_iff, Option.map_eq_some_iff, decide_eq_true_eq,
      true_and]
    constructor
    · rintro ⟨⟨selection, hselected, rfl⟩, hwide⟩
      exact ⟨selection, hselected, hwide, rfl⟩
    · rintro ⟨selection, hselected, hwide, rfl⟩
      exact ⟨⟨selection, hselected, rfl⟩, hwide⟩

end Decoration

namespace Gutter

variable {s : Store} {doc : Document} {filter : Option Filter}

/-- The first line that an annotation occupies does not come behind the last one. -/
theorem lineNumbers_fst_le_snd (doc : Document) (extent : Extent) :
    (lineNumbers doc extent).1 ≤ (lineNumbers doc extent).2 := by
  unfold lineNumbers
  dsimp only
  split
  case isTrue hwide => exact Text.number_lineAt_mono doc.text (Nat.le_sub_one_of_lt hwide)
  case isFalse => exact Nat.le_refl _

/-- A report is on a line if it is that of an annotation that occupies the line. -/
theorem mem_reportsOn_iff {number : Nat} {occupied : List ((Nat × Nat) × Report)} {r : Report} :
    r ∈ reportsOn number occupied ↔
      ∃ entry ∈ occupied, entry.1.1 ≤ number ∧ number ≤ entry.1.2 ∧ entry.2 = r := by
  simp only [reportsOn, List.mem_map, List.mem_filter, Bool.and_eq_true, decide_eq_true_eq]
  constructor
  · rintro ⟨entry, ⟨hentry, hfrom, hto⟩, rfl⟩
    exact ⟨entry, hentry, hfrom, hto, rfl⟩
  · rintro ⟨entry, hentry, hfrom, hto, rfl⟩
    exact ⟨entry, ⟨hentry, hfrom, hto⟩, rfl⟩

/-- The markers list the reports of the annotations whose reports the filter returns, each on at
least one line, and no others. -/
theorem exists_mem_reports_markersOf_iff {r : Report} :
    (∃ m ∈ markersOf s doc filter, r ∈ m.reports) ↔
      ∃ a ∈ Decoration.returned s filter, a.report = r := by
  rw [← Decoration.visible_eq_returned]
  constructor
  · rintro ⟨m, hm, hr⟩
    obtain ⟨line, -, -, rfl⟩ := mem_markersOf_iff_listedOn.mp hm
    obtain ⟨entry, hentry, -, -, rfl⟩ := mem_reportsOn_iff.mp hr
    obtain ⟨a, ha, rfl⟩ := List.mem_map.mp hentry
    exact ⟨a, ha, rfl⟩
  · rintro ⟨a, ha, rfl⟩
    -- the line on which the annotation starts has a marker
    have hlisted : a.report ∈ listedOn s doc filter (doc.lineAt a.extent.start) :=
      mem_reportsOn_iff.mpr ⟨_, List.mem_map_of_mem ha, Nat.le_refl _,
        lineNumbers_fst_le_snd doc a.extent, rfl⟩
    exact ⟨_, mem_markersOf_iff_listedOn.mpr ⟨_, Text.lineAt_mem doc.text _,
      List.ne_nil_of_mem hlisted, rfl⟩, hlisted⟩

end Gutter

namespace Decoration

variable {s : Store} {doc : Document} {r : Report}

/-- A valid store is drawn as one mark or point for each annotation whose report the filter returns,
in the order of their extents, and behind them the highlight, which is there exactly if the panel is
open and the selected report has width. The reports drawn are the same that the markers of the
gutter list, made anew with the same filter. -/
theorem text_agrees_with_gutter (valid : s.Valid doc.length) (filter : Option Filter)
    (theme : Theme) (g : Gutter) :
    let drawn := ofStore s filter theme
    let markers := (g.rebuild s doc filter).1.markers
    (∃ placed highlight, drawn = placed ++ highlight.toList ∧
      List.Forall₂ Draws (returned s filter) placed ∧
      placed.Pairwise (fun a b => a.extent ≤ b.extent) ∧
      ∀ d, highlight = some d ↔ s.panelOpen = true ∧ ∃ selection, s.selected = some selection ∧
        selection.extent.start < selection.extent.stop ∧
          d = .active selection.extent theme.active) ∧
      ∀ r, (∃ d ∈ drawn, d.report? = some r) ↔ ∃ m ∈ markers, r ∈ m.reports := by
  intro drawn markers
  have hdraws : List.Forall₂ Draws (returned s filter) ((returned s filter).map (ofPlaced theme)) :=
    forall₂_draws valid theme fun a ha => List.mem_of_mem_filter ha
  have hdrawn : drawn = (returned s filter).map (ofPlaced theme)
      ++ ((activeExtent s).map fun extent => active extent theme.active).toList := by
    rw [← visible_eq_returned]
    rfl
  have hreports := map_report?_of_draws hdraws
  refine ⟨⟨_, _, hdrawn, hdraws, pairwise_extent_of_draws (valid.ascends.filter _) hdraws,
    fun d => ?_⟩, fun r => ?_⟩
  · simp only [Option.map_eq_some_iff, activeExtent_eq_some_iff]
    constructor
    · rintro ⟨extent, ⟨hopen, selection, hselected, hwide, rfl⟩, rfl⟩
      exact ⟨hopen, selection, hselected, hwide, rfl⟩
    · rintro ⟨hopen, selection, hselected, hwide, rfl⟩
      exact ⟨_, ⟨hopen, selection, hselected, hwide, rfl⟩, rfl⟩
  · have hmem : some r ∈ drawn.map report? ↔ ∃ a ∈ returned s filter, a.report = r := by
      rw [hdrawn, List.map_append, hreports, List.mem_append]
      cases activeExtent s <;> simp [report?]
    rw [← List.mem_map, hmem]
    exact Gutter.exists_mem_reports_markersOf_iff.symm

/-- A filter turns the list round, repeats a report, leaves one out and adds one that the store does
not hold. -/
theorem text_agrees_with_gutter_under_filter :
    let doc : Document := .ofText "main" ['a', 'b', '\n', 'c']
    let wide : Report := ⟨.error ⟨"main", ⟨0, 4⟩⟩ "wide", .host 0⟩
    let spot : Report := ⟨.error ⟨"main", ⟨2, 2⟩⟩ "spot", .host 1⟩
    let last : Report := ⟨.error ⟨"main", ⟨3, 4⟩⟩ "last", .host 2⟩
    let foreign : Report := ⟨.error ⟨"main", ⟨0, 1⟩⟩ "foreign", .host 3⟩
    let filter : Filter := fun reports => foreign :: reports.reverse.drop 1 ++ [spot]
    let s : Store := ⟨[⟨⟨0, 4⟩, .mark, wide⟩, ⟨.point 2, .point, spot⟩, ⟨⟨3, 4⟩, .mark, last⟩],
      some ⟨⟨3, 4⟩, last⟩, true, 1⟩
    let drawn := ofStore s (some filter) .standard
    let markers := (Gutter.empty.rebuild s doc (some filter)).1.markers
    s.Valid doc.length ∧ drawn.map report? = [some wide, some spot, none] ∧
      (∃ m ∈ markers, spot ∈ m.reports) ∧ ¬ ∃ m ∈ markers, last ∈ m.reports := by
  intro doc wide spot last foreign filter s drawn markers
  have valid : s.Valid doc.length := Store.fault?_eq_none_iff.mp rfl
  have hreports : drawn.map report? = [some wide, some spot, none] := by decide
  obtain ⟨-, agree⟩ := text_agrees_with_gutter valid (some filter) .standard .empty
  refine ⟨valid, hreports, (agree spot).mp ?_, fun listed => ?_⟩
  · rw [← List.mem_map, hreports]
    decide
  · have hdrawn := (agree last).mpr listed
    rw [← List.mem_map, hreports] at hdrawn
    revert hdrawn
    decide

end Decoration

end Marginalia
