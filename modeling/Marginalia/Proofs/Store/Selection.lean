import Marginalia.Proofs.Store.Check
import Marginalia.Proofs.Store.Marks
import Marginalia.Proofs.Store.Placement

/-!
# The selection sticks to its report

Through edits alone, the selected report stays selected as long as it has an annotation, wherever
its annotation goes among the others. Only when the report is gone does the selection pass on, to
the first annotation that starts at or after the place where the selected one would have started.
Reports do not come back by edits, so that a report which is selected at first and is there in the
end has been selected all along.
-/

namespace Marginalia

namespace Annotation

/-- An annotation is carried with its report. -/
theorem report_of_carry? {e : Edit} {a b : Annotation} (h : a.carry? e = some b) :
    b.report = a.report := by
  obtain ⟨extent, rfl⟩ := exists_eq_of_carry? h
  rfl

end Annotation

namespace Store

open Annotation (report_of_carry? report_of_ofReport?)

variable {s next start : Store} {doc found after : Document} {e : Edit} {r : Report}

/-- The report is selected, at the place of one of its annotations. -/
def Selects (s : Store) (r : Report) : Prop :=
  ∃ a ∈ s.annotations, a.report = r ∧ s.selected = some (selectionOf a)

/-- What is selected is one of the annotations. -/
def Chosen (s : Store) : Prop :=
  ∀ selection, s.selected = some selection → Among s.annotations selection

/-- All annotations of one report are alike. -/
def OnePlace (s : Store) : Prop :=
  ∀ a ∈ s.annotations, ∀ b ∈ s.annotations, a.report = b.report → a = b

/-- An edit, with the store that it finds and the store that it leaves. -/
structure Move where
  before : Store
  edit : Edit
  after : Store

/-- Edits alone, each for the document at hand, lead from a store and its document to others. -/
inductive Moves (start : Store) (doc : Document) : List Move → Store → Document → Prop where
  | nil : Moves start doc [] start doc
  | step {moves : List Move} {s next : Store} {found after : Document} {e : Edit}
      (earlier : Moves start doc moves s found) (built : e.Built)
      (applied : found.apply e = .ok after) (updated : s.update (.ofEdit e) after = .ok next) :
      Moves start doc (moves ++ [⟨s, e, next⟩]) next after

/-- The selection goes with its report, or passes on when that is gone. -/
structure Move.Follows (m : Move) : Prop where
  sticks : ∀ old, m.before.selected = some old → old.report ∈ m.after.reports →
    m.after.Selects old.report
  passes : ∀ old, m.before.selected = some old → old.report ∉ m.after.reports →
    m.after.selected = (m.after.annotations.find? fun a =>
      m.edit.image .after old.extent.start ≤ a.extent.start).map selectionOf
  stays : m.before.selected = none → m.after.selected = none

/-- A selection that is one of the annotations has its report selected. -/
theorem Chosen.selects (chosen : s.Chosen) {selection : Selection}
    (h : s.selected = some selection) : s.Selects selection.report := by
  obtain ⟨a, ha, rfl⟩ := chosen selection h
  exact ⟨a, ha, rfl, h⟩

/-- A report that is selected is annotated. -/
theorem Selects.mem_reports (h : s.Selects r) : r ∈ s.reports := by
  obtain ⟨a, ha, rfl, -⟩ := h
  exact List.mem_map_of_mem ha

/-- A report is found among the annotations exactly if it is annotated. -/
theorem firstFrom_eq_none_iff {annotations : List Annotation} :
    firstFrom annotations (some r) 0 = none ↔ r ∉ annotations.map (·.report) := by
  simp [firstFrom]

/-- The search for an annotated report finds an annotation of it. -/
theorem exists_firstFrom_of_mem {annotations : List Annotation}
    (h : r ∈ annotations.map (·.report)) : ∃ a ∈ annotations, a.report = r ∧
      firstFrom annotations (some r) 0 = some (selectionOf a) := by
  cases hfirst : firstFrom annotations (some r) 0 with
  | none => exact absurd h (firstFrom_eq_none_iff.mp hfirst)
  | some selection =>
    obtain ⟨a, hfound, rfl⟩ := Option.map_eq_some_iff.mp hfirst
    have hreport : a.report = r := by simpa using List.find?_some hfound
    exact ⟨a, List.mem_of_find?_eq_some hfound, hreport, rfl⟩

/-- The selection goes with its report to the first annotation of it. -/
theorem exists_carrySelection_of_mem {annotations : List Annotation} {old : Selection} (e : Edit)
    (h : old.report ∈ annotations.map (·.report)) : ∃ a ∈ annotations, a.report = old.report ∧
      carrySelection e annotations old = some (selectionOf a) := by
  obtain ⟨a, ha, hreport, hfirst⟩ := exists_firstFrom_of_mem h
  refine ⟨a, ha, hreport, ?_⟩
  rw [carrySelection, hfirst]
  rfl

/-- Without its report the selection passes to what starts at or after the image of its start. -/
theorem carrySelection_of_notMem {annotations : List Annotation} {old : Selection} (e : Edit)
    (h : old.report ∉ annotations.map (·.report)) : carrySelection e annotations old =
      (annotations.find? fun a => e.image .after old.extent.start ≤ a.extent.start).map
        selectionOf := by
  rw [carrySelection, firstFrom_eq_none_iff.mpr h]
  simp [firstFrom]

/-- An edit alone leaves the store as it is if it has no pass. Otherwise it carries the annotations
and the selection. -/
theorem of_update_ofEdit (h : s.update (.ofEdit e) doc = .ok next) :
    next = s ∨ (next.annotations = Annotation.carryAll e s.annotations ∧
      next.selected = s.selected.bind (carrySelection e next.annotations)) := by
  obtain ⟨-, rfl⟩ := update_eq_ok_iff.mp h
  cases hempty : e.isEmpty with
  | true =>
    have hchange : (Transaction.ofEdit e).change = none := Transaction.change_eq_none rfl hempty
    rw [advance, Transaction.changesText, hchange]
    exact Or.inl rfl
  | false =>
    have hchange : (Transaction.ofEdit e).change = some e := Transaction.change_eq_some rfl hempty
    rw [advance, Transaction.changesText, hchange]
    exact Or.inr ⟨rfl, rfl⟩

/-- An annotation that an edit leaves is one from before it, carried, unless nothing has changed. -/
theorem exists_of_mem_update {b : Annotation} (h : s.update (.ofEdit e) doc = .ok next)
    (hb : b ∈ next.annotations) : next = s ∨ ∃ a ∈ s.annotations, a.carry? e = some b := by
  refine (of_update_ofEdit h).imp_right fun ⟨hannotations, _⟩ => ?_
  rw [hannotations] at hb
  exact List.mem_filterMap.mp ((sortByExtent_perm _ _).mem_iff.mp hb)

/-- The reports after an edit are reports from before it. -/
theorem mem_reports_of_update (h : s.update (.ofEdit e) doc = .ok next) (hr : r ∈ next.reports) :
    r ∈ s.reports := by
  obtain ⟨b, hb, rfl⟩ := List.mem_map.mp hr
  rcases exists_of_mem_update h hb with rfl | ⟨a, ha, carried⟩
  · exact hr
  · rw [report_of_carry? carried]
    exact List.mem_map_of_mem ha

/-- What is selected after an edit is one of the annotations, if that was so before. -/
theorem Chosen.update (chosen : s.Chosen) (h : s.update (.ofEdit e) doc = .ok next) :
    next.Chosen := by
  rcases of_update_ofEdit h with rfl | ⟨-, hselected⟩
  · exact chosen
  · intro selection hselection
    rw [hselected] at hselection
    obtain ⟨old, -, hcarried⟩ := Option.bind_eq_some_iff.mp hselection
    exact among_of_carrySelection hcarried

/-- With an edit the selection goes with its report, or passes on. -/
theorem follows_of_update (chosen : s.Chosen) (h : s.update (.ofEdit e) doc = .ok next) :
    Move.Follows ⟨s, e, next⟩ := by
  rcases of_update_ofEdit h with rfl | ⟨-, hselected⟩
  · refine ⟨fun old hold _ => chosen.selects hold, fun old hold hgone => ?_, id⟩
    exact absurd (chosen.selects hold).mem_reports hgone
  · refine ⟨fun old (hold : s.selected = some old) hstays => ?_,
      fun old (hold : s.selected = some old) hgone => ?_, fun (hnone : s.selected = none) => ?_⟩
    · obtain ⟨a, ha, hreport, hcarried⟩ := exists_carrySelection_of_mem e hstays
      refine ⟨a, ha, hreport, ?_⟩
      rw [hselected, hold, Option.bind_some, hcarried]
    · rw [hselected, hold, Option.bind_some, carrySelection_of_notMem e hgone]
    · rw [hselected, hnone, Option.bind_none]

/-- Reports are placed alike wherever they stand in a list. -/
theorem onePlace_setReports (s : Store) (doc : Document) (reports : List Report)
    (rule : SelectionRule) : (s.perform doc (.setReports reports rule)).OnePlace := by
  intro a ha b hb hreport
  obtain ⟨r, -, placed⟩ := List.mem_filterMap.mp ((sortByExtent_perm _ _).mem_iff.mp ha)
  obtain ⟨r', -, placed'⟩ := List.mem_filterMap.mp ((sortByExtent_perm _ _).mem_iff.mp hb)
  rw [report_of_ofReport? placed, report_of_ofReport? placed'] at hreport
  obtain rfl := hreport
  exact Option.some.inj (placed.symm.trans placed')

/-- An edit carries annotations that are alike to annotations that are alike. -/
theorem OnePlace.carry (alike : s.OnePlace) (e : Edit) : (s.carry e).OnePlace := by
  intro a ha b hb hreport
  obtain ⟨a', ha', carried⟩ := List.mem_filterMap.mp ((sortByExtent_perm _ _).mem_iff.mp ha)
  obtain ⟨b', hb', carried'⟩ := List.mem_filterMap.mp ((sortByExtent_perm _ _).mem_iff.mp hb)
  rw [report_of_carry? carried, report_of_carry? carried'] at hreport
  obtain rfl := alike a' ha' b' hb' hreport
  exact Option.some.inj (carried.symm.trans carried')

/-- Effects keep annotations of one report alike. -/
theorem OnePlace.foldl_perform (alike : s.OnePlace) (effects : List Effect) :
    (effects.foldl (perform doc) s).OnePlace := by
  induction effects generalizing s with
  | nil => exact alike
  | cons effect rest ih =>
    cases effect with
    | setReports reports rule => exact ih (onePlace_setReports s doc reports rule)
    | setPanel isOpen => exact ih alike
    | select selection => exact ih alike

/-- Transactions keep annotations of one report alike, and there are none in the empty store. -/
theorem OnePlace.update {t : Transaction} (alike : s.OnePlace) (h : s.update t doc = .ok next) :
    next.OnePlace := by
  have hedited : (s.edited t).OnePlace := by
    unfold edited
    split
    case h_1 e _ => exact alike.carry e
    case h_2 => exact alike
  obtain ⟨version, rfl⟩ := exists_eq_of_update h
  exact hedited.foldl_perform t.effects

namespace Moves

variable {moves : List Move}

/-- Edits keep a store valid and its selection among the annotations. -/
theorem invariant (moved : Moves start doc moves s found) (valid : start.Valid doc.length)
    (chosen : start.Chosen) : s.Valid found.length ∧ s.Chosen := by
  induction moved with
  | nil => exact ⟨valid, chosen⟩
  | step earlier built applied updated ih => exact ⟨valid_of_update updated, ih.2.update updated⟩

/-- With each edit the selection goes with its report, or passes on. -/
theorem follows (moved : Moves start doc moves s found) (valid : start.Valid doc.length)
    (chosen : start.Chosen) : ∀ m ∈ moves, m.Follows := by
  induction moved with
  | nil => exact fun m hm => absurd hm List.not_mem_nil
  | step earlier built applied updated ih =>
    have hlast := follows_of_update (earlier.invariant valid chosen).2 updated
    exact List.forall_mem_append.mpr ⟨ih, List.forall_mem_singleton.mpr hlast⟩

/-- A report that is selected at first and annotated in the end is selected after every edit. -/
theorem selects (moved : Moves start doc moves s found) (valid : start.Valid doc.length)
    (chosen : start.Chosen) (selected : start.Selects r) (stays : r ∈ s.reports) :
    s.Selects r ∧ ∀ m ∈ moves, m.after.Selects r := by
  induction moved with
  | nil => exact ⟨selected, fun m hm => absurd hm List.not_mem_nil⟩
  | @step moves s next found after e earlier built applied updated ih =>
    obtain ⟨⟨a, ha, rfl, hselected⟩, hearlier⟩ := ih (mem_reports_of_update updated stays)
    have follows := follows_of_update (earlier.invariant valid chosen).2 updated
    have hnow := follows.sticks _ hselected stays
    exact ⟨hnow, List.forall_mem_append.mpr ⟨hearlier, List.forall_mem_singleton.mpr hnow⟩⟩

/-- Edits keep annotations of one report alike. -/
theorem onePlace (moved : Moves start doc moves s found) (alike : start.OnePlace) :
    s.OnePlace ∧ ∀ m ∈ moves, m.after.OnePlace := by
  induction moved with
  | nil => exact ⟨alike, fun m hm => absurd hm List.not_mem_nil⟩
  | step earlier built applied updated ih =>
    have hnow := ih.1.update updated
    exact ⟨hnow, List.forall_mem_append.mpr ⟨ih.2, List.forall_mem_singleton.mpr hnow⟩⟩

end Moves

/-- From any valid store that has selected one of its annotations, and through any edits that fit
one after another: with each edit the selected report stays selected, at the place of an annotation
of it, if it has one; otherwise the first annotation that starts at or after the image of where the
selection started is selected, if there is one. A report that is selected at first and annotated in
the end is selected after every edit. Where the annotations of one report are alike, as transactions
leave them, the selection is at the place of all of them. Every edit that fits can follow. -/
theorem selection_sticks_to_report {moves : List Move} (valid : start.Valid doc.length)
    (chosen : start.Chosen) (moved : Moves start doc moves s found) :
    (∀ m ∈ moves, m.Follows) ∧
    (∀ r, start.Selects r → r ∈ s.reports → s.Selects r ∧ ∀ m ∈ moves, m.after.Selects r) ∧
    (start.OnePlace → ∀ m ∈ moves, ∀ a ∈ m.after.annotations, m.after.Selects a.report →
      m.after.selected = some (selectionOf a)) ∧
    ∀ e : Edit, e.Built → found.length = e.lengthBefore → ∃ after next,
      found.apply e = .ok after ∧ s.update (.ofEdit e) after = .ok next ∧
        Moves start doc (moves ++ [⟨s, e, next⟩]) next after := by
  refine ⟨moved.follows valid chosen, fun r => moved.selects valid chosen,
    fun alike m hm a ha selects => ?_, fun e built fits => ?_⟩
  · obtain ⟨b, hb, hreport, hselected⟩ := selects
    rw [hselected, (moved.onePlace alike).2 m hm b hb a ha hreport]
  · obtain ⟨after, applied⟩ := Document.exists_apply fits
    obtain ⟨next, updated⟩ :=
      exists_update_ofEdit (moved.invariant valid chosen).1 built.wellFormed applied
    exact ⟨after, next, applied, updated, moved.step built applied updated⟩

/-- A mark that moves to the front when the one before it is taken away, and is then taken away
itself, so that the point behind it is selected. -/
theorem selection_sticks_to_report_then_passes :
    let doc : Document := .ofText "main" ['a', 'b', 'c', 'd', 'e', 'f', 'g', 'h']
    let first : Report := ⟨.error ⟨"main", ⟨0, 2⟩⟩ "first", .host 0⟩
    let second : Report := ⟨.error ⟨"main", ⟨3, 5⟩⟩ "second", .host 1⟩
    let third : Report := ⟨.error ⟨"main", ⟨6, 6⟩⟩ "third", .host 2⟩
    let s : Store := ⟨[⟨⟨0, 2⟩, .mark, first⟩, ⟨⟨3, 5⟩, .mark, second⟩, ⟨⟨6, 6⟩, .point, third⟩],
      some ⟨⟨3, 5⟩, second⟩, false, 0⟩
    s.Valid doc.length ∧ s.Chosen ∧ ∃ moves last found, Moves s doc moves last found ∧
      moves.map (·.after.selected) = [some ⟨⟨0, 2⟩, second⟩, some ⟨⟨0, 0⟩, third⟩] ∧
      ∀ m ∈ moves, m.Follows := by
  intro doc first second third s
  have valid : s.Valid doc.length := fault?_eq_none_iff.mp (by decide)
  have chosen : s.Chosen := by
    intro selection hselected
    obtain rfl := Option.some.inj hselected
    exact ⟨⟨⟨3, 5⟩, .mark, second⟩, by decide, rfl⟩
  have hfirst : Edit.ofSplice 8 ⟨⟨0, 3⟩, []⟩ = .ok ⟨8, 5, [⟨8, [⟨⟨0, 3⟩, []⟩]⟩]⟩ := rfl
  have hsecond : Edit.ofSplice 5 ⟨⟨0, 3⟩, []⟩ = .ok ⟨5, 2, [⟨5, [⟨⟨0, 3⟩, []⟩]⟩]⟩ := rfl
  let once : Store := ⟨[⟨⟨0, 2⟩, .mark, second⟩, ⟨⟨3, 3⟩, .point, third⟩],
    some ⟨⟨0, 2⟩, second⟩, false, 1⟩
  let last : Store := ⟨[⟨⟨0, 0⟩, .point, third⟩], some ⟨⟨0, 0⟩, third⟩, false, 2⟩
  have unmoved : Moves s doc [] s doc := .nil
  have movedOnce : Moves s doc [⟨s, _, once⟩] once ⟨"main", ['d', 'e', 'f', 'g', 'h'], 1⟩ :=
    unmoved.step (.ofSplice hfirst) rfl (by decide +kernel)
  have moved : Moves s doc [⟨s, _, once⟩, ⟨once, _, last⟩] last ⟨"main", ['g', 'h'], 2⟩ :=
    movedOnce.step (.ofSplice hsecond) rfl (by decide +kernel)
  obtain ⟨follows, -⟩ := selection_sticks_to_report valid chosen moved
  exact ⟨valid, chosen, _, _, _, moved, rfl, follows⟩

end Store

end Marginalia
