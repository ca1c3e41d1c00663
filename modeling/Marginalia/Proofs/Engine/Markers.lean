import Marginalia.Proofs.Engine.Dispatch
import Marginalia.Proofs.Engine.Pointer
import Marginalia.Proofs.Engine.ReportSets
import Marginalia.Proofs.View.Merging

/-!
# Markers through a run

Between replacements of the reports the markers of the gutter and the annotations of the store go
through the same edits by rules of their own: a marker goes with the start of its line, and an
annotation with its extent. So the reports that a marker lists are not always those of its line. An
edit may drop every annotation that a marker is there for and leave the marker, and an edit that
joins two lines may bring together two markers of one report. Each of the two is all that can go
wrong, and only until the reports are replaced.
-/

namespace Marginalia.Engine

open Annotation (carryAll)
open Gutter (Marker)

variable {start en : Engine} {events : List Event} {ev : Event} {e : Edit}

/-- The event takes the markers and the annotations along with the edit: a transaction of the host
changes the text by it and does not replace the reports, and the document does not refuse it. -/
structure Event.Carries (ev : Event) (e : Edit) : Prop where
  asked : ∃ t, ev.operation.transaction? = some t ∧ t.change = some e ∧ t.setsReports = false
  fits : ev.before.doc.length = e.lengthBefore

/-- What an event does to the markers and to the annotations. -/
inductive Event.Marks (ev : Event) : Prop where
  /-- The markers stay but for their times, and so do the annotations. -/
  | kept (idle : ∀ e, ¬ ev.Carries e)
      (markers : ev.reply.engine.gutter.markers.map Marker.undated =
        ev.before.gutter.markers.map Marker.undated)
      (annotations : ev.reply.engine.store.annotations = ev.before.store.annotations)
  /-- An edit takes them along. -/
  | carried (e : Edit) (carries : ev.Carries e)
      (markers : ev.reply.engine.gutter.markers =
        (ev.before.gutter.carry e ev.before.doc ev.reply.engine.doc).1.markers)
      (annotations : ev.reply.engine.store.annotations =
        carryAll e ev.before.store.annotations)
  /-- The markers are made anew from the annotations. -/
  | renewed (idle : ∀ e, ¬ ev.Carries e) (filter : Option Filter)
      (markers : ev.reply.engine.gutter.markers =
        Gutter.markersOf ev.reply.engine.store ev.reply.engine.doc filter)

/-- An event takes markers along with one edit at most. -/
theorem Event.Carries.unique {e' : Edit} (h : ev.Carries e) (h' : ev.Carries e') : e = e' := by
  obtain ⟨t, ht, hchange, -⟩ := h.asked
  obtain ⟨t', ht', hchange', -⟩ := h'.asked
  obtain rfl := Option.some.inj (ht.symm.trans ht')
  exact Option.some.inj (hchange.symm.trans hchange')

/-- The edit of an event is the edit of its operation. -/
theorem Event.Carries.edit? (h : ev.Carries e) : ev.operation.edit? = some e := by
  obtain ⟨t, ht, hchange, -⟩ := h.asked
  rw [Operation.edit?, ht]
  exact (Transaction.change_eq_some_iff.mp hchange).1

/-- What taking along means for a transaction of the host. -/
theorem Event.carries_iff {t : Transaction} (dispatches : ev.operation.transaction? = some t) :
    ev.Carries e ↔ (t.change = some e ∧ t.setsReports = false) ∧
      ev.before.doc.length = e.lengthBefore := by
  constructor
  · rintro ⟨⟨t', ht', hcarries⟩, fits⟩
    obtain rfl := Option.some.inj (dispatches.symm.trans ht')
    exact ⟨hcarries, fits⟩
  · exact fun ⟨hcarries, fits⟩ => ⟨⟨t, dispatches, hcarries⟩, fits⟩

/-- An operation that dispatches nothing takes nothing along. -/
theorem Event.not_carries_of_bare (bare : ev.operation.transaction? = none) : ¬ ev.Carries e := by
  intro h
  obtain ⟨t, ht, -⟩ := h.asked
  rw [bare] at ht
  contradiction

/-- A commit of a transaction leaves markers and annotations alone, takes them along with the edit,
or makes the markers anew. -/
theorem marks_of_committed {found : Engine} {t : Transaction} {store : Store}
    (next : ev.reply.engine = committed found t ev.before.doc store)
    (updated : found.store.update t found.doc = .ok store)
    (hgutter : found.gutter = ev.before.gutter) (hstore : found.store = ev.before.store)
    (carries : ∀ e, ev.Carries e ↔ t.change = some e ∧ t.setsReports = false) : ev.Marks := by
  have hmarkers : ev.reply.engine.gutter.markers =
      (found.commitGutter t ev.before.doc store).1.markers := by rw [next]; rfl
  cases hkeeps : t.setsReports with
  | true =>
    refine .renewed (fun e h => ?_) found.options.gutter.markerFilter ?_
    · rw [((carries e).mp h).2] at hkeeps
      contradiction
    · rw [hmarkers, commitGutter_of_replaces found ev.before.doc store hkeeps, next]
      rfl
  | false =>
    have hannotations : ev.reply.engine.store.annotations =
        (ev.before.store.edited t).annotations := by
      rw [← hstore, ← Store.annotations_of_update updated hkeeps, next]
      rfl
    unfold Store.edited at hannotations
    cases hchange : t.change with
    | none =>
      rw [hchange] at hannotations
      refine .kept (fun e h => ?_) ?_ hannotations
      · rw [((carries e).mp h).1] at hchange
        contradiction
      · rw [hmarkers, commitGutter_of_keeps found ev.before.doc store hkeeps hchange, hgutter]
    | some e =>
      rw [hchange] at hannotations
      refine .carried e ((carries e).mpr ⟨hchange, hkeeps⟩) ?_ hannotations
      rw [hmarkers, commitGutter_of_change found ev.before.doc store hkeeps hchange, hgutter, next]
      rfl

/-- An event without a change to the engine. -/
theorem marks_of_engine_eq (idle : ∀ e, ¬ ev.Carries e) (next : ev.reply.engine = ev.before) :
    ev.Marks := .kept idle (by rw [next]) (by rw [next])

/-- Every event leaves markers and annotations alone, takes them along with an edit, or makes the
markers anew. -/
theorem marks_of_perform (h : ev.before.perform ev.cursor ev.operation = .ok ev.reply) :
    ev.Marks := by
  cases outcome ev.before ev.cursor ev.operation with
  | dispatched t now dispatches is =>
    rw [is] at h
    obtain ⟨⟨next, answer⟩, hdispatch, hreply⟩ := exists_of_map_eq_ok h
    have hnext : ev.reply.engine = next := by rw [← hreply]; rfl
    rcases dispatch_cases hdispatch with
      ⟨rfl, error, rfl⟩ | ⟨doc, store, update, hedited, hstore, -, hcommitted⟩
    · refine marks_of_engine_eq (fun e hcarries => ?_) hnext
      obtain ⟨⟨hchange, -⟩, fits⟩ := (Event.carries_iff dispatches).mp hcarries
      have hrefused := (dispatch_eq_error_iff.mp hdispatch).2
      rw [edited, hchange] at hrefused
      exact (Document.apply_eq_error_iff.mp hrefused).1 fits.symm
    · refine marks_of_committed (hnext.trans hcommitted) hstore rfl rfl fun e => ?_
      refine (Event.carries_iff dispatches).trans (and_iff_left_of_imp fun hcarried => ?_)
      rw [edited, hcarried.1] at hedited
      exact (Document.apply_eq_ok_iff.mp hedited).1
  | acted bare stays acts =>
    have idle : ∀ e, ¬ ev.Carries e := fun e => Event.not_carries_of_bare bare
    rw [h] at acts
    rcases acts.engine_cases with hsame | ⟨key, effect, store, -, hstore, hnext⟩
    · exact marks_of_engine_eq idle hsame
    · refine marks_of_committed hnext hstore rfl rfl fun e => ?_
      refine iff_of_false (idle e) fun hcarried => ?_
      simp [Transaction.change] at hcarried
  | detached left answer is =>
    have hreply := Except.ok.inj (is.symm.trans h)
    have bare : ev.operation.transaction? = none := by rw [left]; rfl
    refine .kept (fun e => Event.not_carries_of_bare bare) ?_ (by rw [← hreply]; rfl)
    rw [← hreply]
    exact (Gutter.keeps_cancel _).markers
  | waited bare stays debounce gutter hover options answer continues keeps rests is =>
    have hreply := Except.ok.inj (is.symm.trans h)
    refine .kept (fun e => Event.not_carries_of_bare bare) ?_ (by rw [← hreply]; rfl)
    rw [← hreply]
    exact keeps.markers

/-- The event takes markers to a line along with an edit that drops every annotation whose report
they list. -/
def Event.Strands (ev : Event) : Prop := ∃ e, ev.Carries e ∧
  ev.before.gutter.Strands ev.before.store.annotations e ev.reply.engine.doc

/-- The event takes two markers that list the same report to one line. -/
def Event.Joins (ev : Event) : Prop := ∃ e, ev.Carries e ∧
  ev.before.gutter.Joins e ev.reply.engine.doc

/-- What is true of what markers list is so whatever their times are. -/
theorem forall_mem_reports_congr {P : List Report → Prop} {markers others : List Marker}
    (h : markers.map Marker.undated = others.map Marker.undated) :
    (∀ m ∈ markers, P m.reports) ↔ ∀ m ∈ others, P m.reports := by
  have hforall (markers : List Marker) :
      (∀ m ∈ markers, P m.reports) ↔ ∀ m ∈ markers.map Marker.undated, P m.reports := by
    rw [List.forall_mem_map]
    rfl
  rw [hforall, h, ← hforall]

/-- What is true of what markers list, and of markers made anew, is so after an event exactly if no
edit takes it away. -/
theorem Event.Marks.forall_iff (marks : ev.Marks) {P : List Annotation → List Report → Prop}
    {lost : Edit → Prop}
    (begun : ∀ m ∈ ev.before.gutter.markers, P ev.before.store.annotations m.reports)
    (carried : ∀ e, ev.Carries e →
      ((∀ m ∈ (ev.before.gutter.carry e ev.before.doc ev.reply.engine.doc).1.markers,
        P (carryAll e ev.before.store.annotations) m.reports) ↔ ¬ lost e))
    (renewed : ∀ m : Marker, m.reports ≠ [] → m.reports.Sublist ev.reply.engine.store.reports →
      P ev.reply.engine.store.annotations m.reports) :
    (∀ m ∈ ev.reply.engine.gutter.markers, P ev.reply.engine.store.annotations m.reports) ↔
      ¬ ∃ e, ev.Carries e ∧ lost e := by
  cases marks with
  | kept idle hmarkers hannotations =>
    refine iff_of_true ?_ fun ⟨e, hcarries, _⟩ => idle e hcarries
    rw [hannotations]
    exact (forall_mem_reports_congr hmarkers).mpr begun
  | carried e hcarries hmarkers hannotations =>
    rw [hmarkers, hannotations, carried e hcarries]
    refine not_congr ⟨fun hlost => ⟨e, hcarries, hlost⟩, fun ⟨e', hcarries', hlost⟩ => ?_⟩
    rw [hcarries.unique hcarries']
    exact hlost
  | renewed idle filter hmarkers =>
    refine iff_of_true (fun m hm => ?_) fun ⟨e, hcarries, _⟩ => idle e hcarries
    rw [hmarkers] at hm
    obtain ⟨hsome, hsublist⟩ := Gutter.sublist_of_mem_markersOf hm
    exact renewed m hsome hsublist

/-- What is true of what markers list, and of markers made anew, is so after every event of a run
from the start, exactly if no edit of the run takes it away. -/
theorem Run.forall_markers_iff {doc : Document} {options : Options} {now : Nat}
    (ran : Run (attach doc options now) events en)
    (built : ∀ ev ∈ events, ∀ e, ev.operation.edit? = some e → e.Built)
    {P : List Annotation → List Report → Prop} {lost : Event → Edit → Prop}
    (carried : ∀ ev ∈ events, ∀ e, e.WellFormed →
      (ev.before.gutter.markers.Pairwise fun a b => a.lineStart < b.lineStart) →
      (∀ m ∈ ev.before.gutter.markers, P ev.before.store.annotations m.reports) →
      ((∀ m ∈ (ev.before.gutter.carry e ev.before.doc ev.reply.engine.doc).1.markers,
        P (carryAll e ev.before.store.annotations) m.reports) ↔ ¬ lost ev e))
    (renewed : ∀ ev ∈ events, ∀ m : Marker, m.reports ≠ [] →
      m.reports.Sublist ev.reply.engine.store.reports →
      P ev.reply.engine.store.annotations m.reports) :
    (∀ ev ∈ events, ∀ m ∈ ev.reply.engine.gutter.markers,
        P ev.reply.engine.store.annotations m.reports) ↔
      ∀ ev ∈ events, ¬ ∃ e, ev.Carries e ∧ lost ev e := by
  refine ran.forall_iff
    (P := fun en => ∀ m ∈ en.gutter.markers, P en.store.annotations m.reports)
    (List.forall_mem_nil _) fun ev hev holds => ?_
  obtain ⟨earlier, later, rfl, hran, performed⟩ := ran.of_mem hev
  have sound := hran.gutter_sound (Gutter.sound_empty doc.text) fun ev' hev' =>
    built ev' (List.mem_append_left _ hev')
  refine (marks_of_perform performed).forall_iff holds (fun e hcarries => ?_) (renewed ev hev)
  exact carried ev hev e (built ev hev e hcarries.edit?).wellFormed sound.ascends holds

/-- In a run from the start every marker always lists a report that the store holds, exactly if no
edit of the run strands one. -/
theorem markers_list_held_reports_iff {doc : Document} {options : Options} {now : Nat}
    (ran : Run (attach doc options now) events en)
    (built : ∀ ev ∈ events, ∀ e, ev.operation.edit? = some e → e.Built) :
    (∀ ev ∈ events, ∀ m ∈ ev.reply.engine.gutter.markers,
        ∃ r ∈ m.reports, r ∈ ev.reply.engine.store.reports) ↔
      ∀ ev ∈ events, ¬ ev.Strands := by
  refine ran.forall_markers_iff built
    (P := fun annotations reports => ∃ r ∈ reports, r ∈ annotations.map (·.report))
    (fun ev _ e formed ascends _ => Gutter.forall_mem_carry_held_iff formed ascends)
    fun ev _ m hsome hsublist => ?_
  obtain ⟨r, hr⟩ := List.exists_mem_of_ne_nil _ hsome
  exact ⟨r, hr, hsublist.subset hr⟩

/-- One of the two texts that are flagged on a line is removed. -/
private theorem exists_gutter_after_removal :
    let doc : Document := .ofText "main" ['a', 'b', 'c', 'd']
    let left : Report := ⟨.error ⟨"main", ⟨0, 2⟩⟩ "left", .host 0⟩
    let right : Report := ⟨.error ⟨"main", ⟨2, 4⟩⟩ "right", .host 1⟩
    let e : Edit := ⟨4, 2, [⟨4, [⟨⟨0, 2⟩, []⟩]⟩]⟩
    ∃ filled made,
      (attach doc .standard 0).perform ⟨0, 0⟩ (.setReports [left, right] 0) = .ok filled ∧
      filled.engine.perform ⟨0, 0⟩ (.edit e 1) = .ok made ∧
      filled.engine.gutter.markers = [⟨0, .error, [left, right], none⟩] ∧
      filled.engine.store.reports = [left, right] ∧
      made.engine.gutter.markers = [⟨0, .error, [left, right], none⟩] ∧
      made.engine.store.reports = [right] :=
  ⟨_, _, rfl, rfl, rfl, rfl, rfl, rfl⟩

/-- The edit that removes one of two flagged texts of a line strands no marker. -/
theorem markers_list_held_reports_iff_after_removal :
    let doc : Document := .ofText "main" ['a', 'b', 'c', 'd']
    let left : Report := ⟨.error ⟨"main", ⟨0, 2⟩⟩ "left", .host 0⟩
    let right : Report := ⟨.error ⟨"main", ⟨2, 4⟩⟩ "right", .host 1⟩
    let e : Edit := ⟨4, 2, [⟨4, [⟨⟨0, 2⟩, []⟩]⟩]⟩
    ∃ events en, events.map (·.operation) = [.setReports [left, right] 0, .edit e 1] ∧
      Run (attach doc .standard 0) events en ∧
      (∀ ev ∈ events, ∀ e, ev.operation.edit? = some e → e.Built) ∧
      en.gutter.markers = [⟨0, .error, [left, right], none⟩] ∧ en.store.reports = [right] ∧
      ∀ ev ∈ events, ¬ ev.Strands := by
  intro doc left right e
  obtain ⟨filled, made, hfilled, hmade, hmarkers, hreports, hmarkers', hreports'⟩ :=
    exists_gutter_after_removal
  have asked : Edit.ofSplice 4 ⟨⟨0, 2⟩, []⟩ = .ok e := rfl
  let events : List Event := [⟨attach doc .standard 0, ⟨0, 0⟩, .setReports [left, right] 0, filled⟩,
    ⟨filled.engine, ⟨0, 0⟩, .edit e 1, made⟩]
  have ran : Run (attach doc .standard 0) events made.engine := (Run.nil.step hfilled).step hmade
  have built : ∀ ev ∈ events, ∀ e, ev.operation.edit? = some e → e.Built := by
    simp only [events, List.forall_mem_cons]
    exact ⟨Operation.built_of_bare _ rfl, Operation.built_of_edit (.ofSplice asked) 1,
      List.forall_mem_nil _⟩
  refine ⟨events, made.engine, rfl, ran, built, hmarkers', hreports', ?_⟩
  refine (markers_list_held_reports_iff ran built).mp ?_
  simp only [events, List.forall_mem_cons, hmarkers, hreports, hmarkers', hreports']
  exact ⟨by decide, by decide, List.forall_mem_nil _⟩

/-- The only text that is flagged on a line is removed. -/
private theorem exists_marker_after_removal :
    let doc : Document := .ofText "main" ['a', 'b']
    let bad : Report := ⟨.error ⟨"main", ⟨0, 2⟩⟩ "bad", .host 0⟩
    let e : Edit := ⟨2, 0, [⟨2, [⟨⟨0, 2⟩, []⟩]⟩]⟩
    ∃ filled made,
      (attach doc .standard 0).perform ⟨0, 0⟩ (.setReports [bad] 0) = .ok filled ∧
      filled.engine.perform ⟨0, 0⟩ (.edit e 1) = .ok made ∧
      made.engine.gutter.markers = [⟨0, .error, [bad], none⟩] ∧
      made.engine.store.reports = [] :=
  ⟨_, _, rfl, rfl, rfl, rfl⟩

/-- When the only flagged text of a line is removed and the start of the line stays, the marker
stays and lists a report that the store does not hold. -/
theorem marker_lists_no_held_report :
    let doc : Document := .ofText "main" ['a', 'b']
    let bad : Report := ⟨.error ⟨"main", ⟨0, 2⟩⟩ "bad", .host 0⟩
    let e : Edit := ⟨2, 0, [⟨2, [⟨⟨0, 2⟩, []⟩]⟩]⟩
    ∃ events en, events.map (·.operation) = [.setReports [bad] 0, .edit e 1] ∧
      Run (attach doc .standard 0) events en ∧
      (∀ ev ∈ events, ∀ e, ev.operation.edit? = some e → e.Built) ∧
      ¬ ∀ m ∈ en.gutter.markers, ∃ r ∈ m.reports, r ∈ en.store.reports := by
  intro doc bad e
  obtain ⟨filled, made, hfilled, hmade, hmarkers, hreports⟩ := exists_marker_after_removal
  have asked : Edit.ofSplice 2 ⟨⟨0, 2⟩, []⟩ = .ok e := rfl
  let events : List Event := [⟨attach doc .standard 0, ⟨0, 0⟩, .setReports [bad] 0, filled⟩,
    ⟨filled.engine, ⟨0, 0⟩, .edit e 1, made⟩]
  refine ⟨events, made.engine, rfl, (Run.nil.step hfilled).step hmade, ?_, ?_⟩
  · simp only [events, List.forall_mem_cons]
    exact ⟨Operation.built_of_bare _ rfl, Operation.built_of_edit (.ofSplice asked) 1,
      List.forall_mem_nil _⟩
  · rw [hmarkers, hreports]
    simp

/-- The event is a poll of the gutter that opens a pop-up with these reports. -/
def Event.Opens (ev : Event) (reports : List Report) : Prop :=
  (∃ now, ev.operation = .gutterPoll now) ∧
    ∃ p : Gutter.Popup, ev.reply.answer = .popup (some p) ∧ p.reports = reports

/-- A pop-up that is open in the end was opened by a poll, and lists what it listed then. -/
theorem Run.exists_opens {p : Gutter.Popup} (ran : Run start events en)
    (closed : start.gutter.popup = none) (shown : en.gutter.popup = some p) :
    ∃ ev ∈ events, ev.Opens p.reports ∧
      ∃ m ∈ ev.before.gutter.markers, p.reports = m.listed ev.before.options.gutter := by
  induction ran generalizing p with
  | nil =>
    rw [closed] at shown
    contradiction
  | step earlier performed ih =>
    rcases exists_popup_of_perform performed shown with
      ⟨old, hold, hreports⟩ | ⟨polled, answered, m, hm, hlisted⟩
    · obtain ⟨ev, hev, hopens⟩ := ih hold
      rw [hreports] at hopens
      exact ⟨ev, List.mem_append_left _ hev, hopens⟩
    · exact ⟨_, List.mem_append_right _ List.mem_cons_self, ⟨polled, p, answered, rfl⟩, m, hm,
        hlisted⟩

/-- In a run from the start in which every set of reports that is applied has each report once, no
marker ever lists a report twice, exactly if no edit of the run joins two markers that list the same
report. Then an open pop-up lists no report twice either, if the filter in force when it opened only
leaves reports out. -/
theorem markers_list_reports_once_iff {doc : Document} {options : Options} {now : Nat}
    (ran : Run (attach doc options now) events en)
    (built : ∀ ev ∈ events, ∀ e, ev.operation.edit? = some e → e.Built)
    (sets : ∀ ev ∈ events, ∀ reports ∈ ev.before.applied ev.operation, reports.Nodup) :
    ((∀ ev ∈ events, ∀ m ∈ ev.reply.engine.gutter.markers, m.reports.Nodup) ↔
        ∀ ev ∈ events, ¬ ev.Joins) ∧
      ((∀ ev ∈ events, ¬ ev.Joins) → ∀ p, en.gutter.popup = some p →
        ∃ ev ∈ events, ev.Opens p.reports ∧
          (Filter.Narrows ev.before.options.gutter.popupFilter → p.reports.Nodup)) := by
  have hiff : (∀ ev ∈ events, ∀ m ∈ ev.reply.engine.gutter.markers, m.reports.Nodup) ↔
      ∀ ev ∈ events, ¬ ev.Joins := by
    refine ran.forall_markers_iff built (P := fun _ reports => reports.Nodup)
      (fun ev _ e formed ascends once => Gutter.forall_mem_carry_nodup_iff formed ascends once)
      fun ev hev m _ hsublist => ?_
    obtain ⟨earlier, later, rfl, hran, performed⟩ := ran.of_mem hev
    obtain ⟨hearlier, hlast⟩ := List.forall_mem_append.mp sets
    have distinct := hran.nodup_reports List.nodup_nil hearlier
    exact (nodup_reports_of_perform distinct (hlast ev List.mem_cons_self) performed).sublist
      hsublist
  refine ⟨hiff, fun apart p shown => ?_⟩
  obtain ⟨ev, hev, hopens, m, hm, hlisted⟩ := ran.exists_opens rfl shown
  refine ⟨ev, hev, hopens, fun narrows => ?_⟩
  obtain ⟨earlier, later, rfl, hran, -⟩ := ran.of_mem hev
  have once := hran.last_of_forall (P := fun en => ∀ m ∈ en.gutter.markers, m.reports.Nodup)
    (List.forall_mem_nil _) fun ev' hev' => hiff.mpr apart ev' (List.mem_append_left _ hev')
  rw [hlisted]
  exact (once m hm).sublist (narrows m.reports)

/-- A report has markers on two lines, the pop-up of the first one opens, and the second line is
split. -/
private theorem exists_popup_after_split :
    let doc : Document := .ofText "main" ['a', 'b', '\n', 'c', 'd']
    let hint : Report := ⟨⟨⟨"main", ⟨0, 1⟩⟩, .hint, "hint", none, [], none⟩, .host 0⟩
    let wide : Report := ⟨.error ⟨"main", ⟨0, 5⟩⟩ "wide", .host 1⟩
    let e : Edit := ⟨5, 6, [⟨5, [⟨⟨4, 4⟩, ['\n']⟩]⟩]⟩
    ∃ filled pointed opened made,
      (attach doc .standard 0).perform ⟨0, 0⟩ (.setReports [wide, hint] 0) = .ok filled ∧
      filled.engine.perform ⟨0, 0⟩ (.gutterOver 0 0) = .ok pointed ∧
      pointed.engine.perform ⟨0, 0⟩ (.gutterPoll 300) = .ok opened ∧
      opened.engine.perform ⟨0, 0⟩ (.edit e 400) = .ok made ∧
      (∀ en ∈ [attach doc .standard 0, filled.engine, pointed.engine, opened.engine],
        en.options = .standard) ∧
      (∀ en ∈ [filled.engine, pointed.engine, opened.engine, made.engine],
        en.gutter.markers.map (·.reports) = [[hint, wide], [wide]]) ∧
      made.engine.gutter.popup = some ⟨0, [hint, wide]⟩ := by
  refine ⟨_, _, _, _, rfl, rfl, rfl, rfl, ?_, ?_, rfl⟩
  · simp only [List.forall_mem_cons]
    exact ⟨rfl, rfl, rfl, rfl, fun _ h => absurd h List.not_mem_nil⟩
  · simp only [List.forall_mem_cons]
    exact ⟨rfl, rfl, rfl, rfl, fun _ h => absurd h List.not_mem_nil⟩

/-- Splitting a line joins no markers, and the pop-up that stays open lists each report once. -/
theorem markers_list_reports_once_iff_after_split :
    let doc : Document := .ofText "main" ['a', 'b', '\n', 'c', 'd']
    let hint : Report := ⟨⟨⟨"main", ⟨0, 1⟩⟩, .hint, "hint", none, [], none⟩, .host 0⟩
    let wide : Report := ⟨.error ⟨"main", ⟨0, 5⟩⟩ "wide", .host 1⟩
    let e : Edit := ⟨5, 6, [⟨5, [⟨⟨4, 4⟩, ['\n']⟩]⟩]⟩
    ∃ events en, events.map (·.operation) =
        [.setReports [wide, hint] 0, .gutterOver 0 0, .gutterPoll 300, .edit e 400] ∧
      Run (attach doc .standard 0) events en ∧
      (∀ ev ∈ events, ∀ e, ev.operation.edit? = some e → e.Built) ∧
      (∀ ev ∈ events, ∀ reports ∈ ev.before.applied ev.operation, reports.Nodup) ∧
      (∀ ev ∈ events, ¬ ev.Joins) ∧
      ∃ p, en.gutter.popup = some p ∧ p.reports = [hint, wide] ∧ p.reports.Nodup := by
  intro doc hint wide e
  obtain ⟨filled, pointed, opened, made, hfilled, hover, hopened, hmade, options, lists, hpopup⟩ :=
    exists_popup_after_split
  have asked : Edit.ofSplice 5 ⟨⟨4, 4⟩, ['\n']⟩ = .ok e := rfl
  let events : List Event := [⟨attach doc .standard 0, ⟨0, 0⟩, .setReports [wide, hint] 0, filled⟩,
    ⟨filled.engine, ⟨0, 0⟩, .gutterOver 0 0, pointed⟩,
    ⟨pointed.engine, ⟨0, 0⟩, .gutterPoll 300, opened⟩, ⟨opened.engine, ⟨0, 0⟩, .edit e 400, made⟩]
  have ran : Run (attach doc .standard 0) events made.engine :=
    (((Run.nil.step hfilled).step hover).step hopened).step hmade
  have built : ∀ ev ∈ events, ∀ e, ev.operation.edit? = some e → e.Built := by
    simp only [events, List.forall_mem_cons]
    exact ⟨Operation.built_of_bare _ rfl, Operation.built_of_bare _ rfl,
      Operation.built_of_bare _ rfl, Operation.built_of_edit (.ofSplice asked) 400,
      List.forall_mem_nil _⟩
  have sets : ∀ ev ∈ events, ∀ reports ∈ ev.before.applied ev.operation, reports.Nodup := by
    simp only [events, List.forall_mem_cons]
    exact ⟨by decide, List.forall_mem_nil _, List.forall_mem_nil _, List.forall_mem_nil _,
      List.forall_mem_nil _⟩
  have once : ∀ ev ∈ events, ∀ m ∈ ev.reply.engine.gutter.markers, m.reports.Nodup := by
    intro ev hev m hm
    have hlists := lists ev.reply.engine (List.mem_map_of_mem (f := (·.reply.engine)) hev)
    have hreports : m.reports ∈ [[hint, wide], [wide]] := by
      rw [← hlists]
      exact List.mem_map_of_mem hm
    exact (show ∀ reports ∈ [[hint, wide], [wide]], reports.Nodup by decide) m.reports hreports
  obtain ⟨hiff, popups⟩ := markers_list_reports_once_iff ran built sets
  have apart := hiff.mp once
  obtain ⟨ev, hev, -, narrowed⟩ := popups apart _ hpopup
  refine ⟨events, made.engine, rfl, ran, built, sets, apart, _, hpopup, rfl, narrowed ?_⟩
  rw [options ev.before (List.mem_map_of_mem (f := (·.before)) hev)]
  exact Filter.narrows_none

/-- The break between two lines that one report has markers on is removed. -/
private theorem exists_marker_after_joining :
    let doc : Document := .ofText "main" ['a', 'b', '\n', 'c', 'd']
    let wide : Report := ⟨.error ⟨"main", ⟨0, 5⟩⟩ "wide", .host 0⟩
    let e : Edit := ⟨5, 4, [⟨5, [⟨⟨2, 3⟩, []⟩]⟩]⟩
    ∃ filled made,
      (attach doc .standard 0).perform ⟨0, 0⟩ (.setReports [wide] 0) = .ok filled ∧
      filled.engine.perform ⟨0, 0⟩ (.edit e 1) = .ok made ∧
      made.engine.gutter.markers = [⟨0, .error, [wide, wide], none⟩] :=
  ⟨_, _, rfl, rfl, rfl⟩

/-- When two lines with markers of one report are joined, the marker of the joined line lists the
report twice. -/
theorem marker_lists_report_twice :
    let doc : Document := .ofText "main" ['a', 'b', '\n', 'c', 'd']
    let wide : Report := ⟨.error ⟨"main", ⟨0, 5⟩⟩ "wide", .host 0⟩
    let e : Edit := ⟨5, 4, [⟨5, [⟨⟨2, 3⟩, []⟩]⟩]⟩
    ∃ events en, events.map (·.operation) = [.setReports [wide] 0, .edit e 1] ∧
      Run (attach doc .standard 0) events en ∧
      (∀ ev ∈ events, ∀ e, ev.operation.edit? = some e → e.Built) ∧
      (∀ ev ∈ events, ∀ reports ∈ ev.before.applied ev.operation, reports.Nodup) ∧
      ¬ ∀ m ∈ en.gutter.markers, m.reports.Nodup := by
  intro doc wide e
  obtain ⟨filled, made, hfilled, hmade, hmarkers⟩ := exists_marker_after_joining
  have asked : Edit.ofSplice 5 ⟨⟨2, 3⟩, []⟩ = .ok e := rfl
  let events : List Event := [⟨attach doc .standard 0, ⟨0, 0⟩, .setReports [wide] 0, filled⟩,
    ⟨filled.engine, ⟨0, 0⟩, .edit e 1, made⟩]
  refine ⟨events, made.engine, rfl, (Run.nil.step hfilled).step hmade, ?_, ?_, ?_⟩
  · simp only [events, List.forall_mem_cons]
    exact ⟨Operation.built_of_bare _ rfl, Operation.built_of_edit (.ofSplice asked) 1,
      List.forall_mem_nil _⟩
  · simp only [events, List.forall_mem_cons]
    exact ⟨by decide, List.forall_mem_nil _, List.forall_mem_nil _⟩
  · rw [hmarkers]
    decide

end Marginalia.Engine
