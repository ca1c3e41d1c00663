import Marginalia.Proofs.Engine.Waiting

/-!
# Runs that end out of order

Two runs can be under way for one version of the document, since a change of the settings asks
for a run without an edit. Results are held against the version of the document and not against
the number of the run. So the results of an older run replace those of a newer one if both are
for the version at hand, and are dropped in every other case.
-/

namespace Marginalia.Engine

variable {en start : Engine} {events : List Event} {older newer ticket : Ticket}

/-- The event shows the results of the run of a ticket. -/
def Event.Shows (ev : Event) (ticket : Ticket) : Prop :=
  ∃ update,
    (∃ batches, ev.operation = .complete ticket batches ∧
      ev.reply.answer = .verdict (.applied update)) ∨
    (∃ g, ev.operation = .completeGathered g ∧ g.ticket = ticket ∧
      ev.reply.answer = .gathered (some (.applied update)))

/-- Gathered results are shown as the results of their ticket. -/
theorem of_completeGathered_applied {g : Gather Batch} {next : Engine} {update : ViewUpdate}
    (h : en.completeGathered g = .ok (next, some (.applied update))) :
    en.isAttached = true ∧ g.ticket.version = en.doc.version := by
  unfold completeGathered at h
  split at h
  case h_1 => exact absurd (Prod.mk.inj (Except.ok.inj h)).2 nofun
  case h_2 batches _ =>
    obtain ⟨⟨next', verdict⟩, hcomplete, heq⟩ := exists_of_map_eq_ok h
    obtain ⟨rfl, hverdict⟩ := Prod.mk.inj heq
    obtain rfl := Option.some.inj hverdict
    exact of_complete_applied hcomplete

/-- Results are shown by an attached engine at the version of their ticket, which it keeps. -/
theorem of_shows {ev : Event} (performed : en.perform ev.cursor ev.operation = .ok ev.reply)
    (shows : ev.Shows ticket) :
    ev.reply.engine.isAttached = true ∧ ev.reply.engine.doc.version = ticket.version := by
  obtain ⟨before, cursor, op, reply⟩ := ev
  have hcurrent : op.transaction? = none ∧ op ≠ .detach ∧
      en.isAttached = true ∧ ticket.version = en.doc.version := by
    obtain ⟨update, ⟨batches, rfl, hanswer⟩ | ⟨g, rfl, rfl, hanswer⟩⟩ := shows
    · obtain ⟨⟨next, verdict⟩, hcomplete, rfl⟩ := exists_of_map_eq_ok performed
      obtain rfl := Answer.verdict.inj hanswer
      exact ⟨rfl, nofun, of_complete_applied hcomplete⟩
    · obtain ⟨⟨next, verdict⟩, hcomplete, rfl⟩ := exists_of_map_eq_ok performed
      obtain rfl := Answer.gathered.inj hanswer
      exact ⟨rfl, nofun, of_completeGathered_applied hcomplete⟩
  obtain ⟨bare, stays, hattached, hversion⟩ := hcurrent
  refine ⟨?_, ?_⟩
  · rcases debounce_of_perform performed with ⟨left, -⟩ | ⟨-, continues⟩
    · exact absurd left stays
    · rw [isAttached, continues.attached]
      exact hattached
  · rcases doc_of_perform performed with ⟨alters, -⟩ | ⟨-, hdoc⟩
    · exact absurd alters (Event.not_alters bare)
    · rw [hdoc, hversion]

/-- A ticket with a smaller number has no greater version. -/
theorem Run.version_le_of_run_lt (ran : Run start events en) (hold : older ∈ issued events)
    (hnew : newer ∈ issued events) (order : older.run < newer.run) :
    older.version ≤ newer.version := by
  have hascend := List.pairwise_iff_getElem.mp ran.issued_ascend.1
  obtain ⟨i, hi, rfl⟩ := List.getElem_of_mem hold
  obtain ⟨j, hj, rfl⟩ := List.getElem_of_mem hnew
  rcases Nat.lt_trichotomy i j with hlt | rfl | hlt
  · exact (hascend i j hi hj hlt).2
  · exact Nat.le_refl _
  · exact absurd (hascend j i hj hi hlt).1 (Nat.lt_asymm order)

/-- Results are shown exactly by an attached engine at the version of their ticket. -/
theorem exists_complete_applied_iff (ticket : Ticket) (batches : List Batch) :
    (∃ next update, en.complete ticket batches = .ok (next, .applied update)) ↔
      en.isAttached = true ∧ ticket.version = en.doc.version := by
  constructor
  · rintro ⟨next, update, happlied⟩
    exact of_complete_applied happlied
  · rintro ⟨hattached, hversion⟩
    obtain ⟨next, update, happlied, -⟩ := exists_complete_applied batches hattached hversion
    exact ⟨next, update, happlied⟩

/-- What becomes of the results of an older run once those of a newer one have been shown. They
replace them exactly if both runs are for one version, and since then no edit was taken and the
engine was not detached. Otherwise they are stale, or the engine is detached, and everything stays
as it was. -/
theorem complete_older_iff {doc : Document} {options : Options} {now : Nat} {shown : Event}
    {later : List Event} (ran : Run (attach doc options now) (events ++ shown :: later) en)
    (hold : older ∈ issued (events ++ shown :: later))
    (hnew : newer ∈ issued (events ++ shown :: later)) (order : older.run < newer.run)
    (shows : shown.Shows newer) (batches : List Batch) :
    ((∃ next update, en.complete older batches = .ok (next, .applied update)) ↔
      older.version = newer.version ∧
        ∀ ev ∈ later, ¬ ev.Alters ∧ ev.operation ≠ .detach) ∧
    ((∃ next update, en.complete older batches = .ok (next, .applied update)) ∨
      en.complete older batches = .ok (en, .stale older en.doc.version) ∨
      en.complete older batches = .ok (en, .detached)) := by
  obtain ⟨found, -, hrest⟩ := ran.of_append
  obtain ⟨performed, since⟩ := hrest.of_cons
  obtain ⟨hattached, hversion⟩ := of_shows performed shows
  have hle := ran.version_le_of_run_lt hold hnew order
  have hstays := since.isAttached_iff
  rw [hattached, and_iff_right rfl] at hstays
  rw [exists_complete_applied_iff, hstays]
  refine ⟨⟨?_, ?_⟩, ?_⟩
  · rintro ⟨stays, hcurrent⟩
    rcases since.doc with ⟨hdoc, kept⟩ | ⟨hlt, -⟩
    · refine ⟨?_, fun ev hev => ⟨kept ev hev, stays ev hev⟩⟩
      rw [hcurrent, hdoc, hversion]
    · omega
  · rintro ⟨hsame, kept⟩
    refine ⟨fun ev hev => (kept ev hev).2, ?_⟩
    rcases since.doc with ⟨hdoc, -⟩ | ⟨-, ev, hev, alters⟩
    · rw [hsame, hdoc, hversion]
    · exact absurd alters (kept ev hev).1
  · rw [← hstays]
    cases hon : en.isAttached with
    | false => exact Or.inr (Or.inr (complete_of_detached older batches hon))
    | true =>
      by_cases hcurrent : older.version = en.doc.version
      · exact Or.inl ⟨rfl, hcurrent⟩
      · exact Or.inr (Or.inl (complete_of_stale batches hon hcurrent))

/-- Two runs for one version, of which the newer has ended. The results of the older are at hand,
and so is an edit. -/
private theorem exists_overtaken_run :
    let doc : Document := .ofText "main" ['a', 'b']
    let old : Report := ⟨.error ⟨"main", ⟨0, 1⟩⟩ "old", .host 0⟩
    let new : Report := ⟨.error ⟨"main", ⟨1, 2⟩⟩ "new", .host 1⟩
    let e : Edit := ⟨2, 3, [⟨2, [⟨⟨1, 1⟩, ['x']⟩]⟩]⟩
    ∃ first noted second shown,
      (attach doc .standard 0).perform ⟨0, 0⟩ (.force 0) = .ok first ∧
      first.engine.perform ⟨0, 0⟩ (.noteConfigChange 1) = .ok noted ∧
      noted.engine.perform ⟨0, 0⟩ (.force 2) = .ok second ∧
      second.engine.perform ⟨0, 0⟩ (.complete ⟨2, 0⟩ [⟨[new], 0⟩]) = .ok shown ∧
      first.answer = .request (some ⟨⟨1, 0⟩, "main", ['a', 'b']⟩) ∧ noted.answer = .done ∧
      second.answer = .request (some ⟨⟨2, 0⟩, "main", ['a', 'b']⟩) ∧
      (∃ update, shown.answer = .verdict (.applied update)) ∧
      shown.engine.store.reports = [new] ∧
      (∃ next update, shown.engine.complete ⟨1, 0⟩ [⟨[old], 0⟩] = .ok (next, .applied update) ∧
        next.store.reports = [old]) ∧
      ∃ made update, shown.engine.perform ⟨0, 0⟩ (.edit e 3) = .ok made ∧
        made.answer = .update (.ok update) :=
  ⟨_, _, _, _, rfl, rfl, rfl, rfl, rfl, rfl, rfl, ⟨_, rfl⟩, rfl, ⟨_, _, rfl, rfl⟩, _, _, rfl, rfl⟩

/-- A run from before a change of the settings does end after the run from after it: its results
replace the newer ones. -/
theorem older_results_replace_newer :
    let doc : Document := .ofText "main" ['a', 'b']
    let old : Report := ⟨.error ⟨"main", ⟨0, 1⟩⟩ "old", .host 0⟩
    let new : Report := ⟨.error ⟨"main", ⟨1, 2⟩⟩ "new", .host 1⟩
    ∃ events en next update,
      events.map (·.operation) =
        [.force 0, .noteConfigChange 1, .force 2, .complete ⟨2, 0⟩ [⟨[new], 0⟩]] ∧
      Run (attach doc .standard 0) events en ∧ issued events = [⟨1, 0⟩, ⟨2, 0⟩] ∧
      (∃ ev ∈ events, ev.Shows ⟨2, 0⟩) ∧ en.store.reports = [new] ∧
      en.complete ⟨1, 0⟩ [⟨[old], 0⟩] = .ok (next, .applied update) ∧
      next.store.reports = [old] := by
  obtain ⟨first, noted, second, shown, hfirst, hnoted, hsecond, hshown, holder, hnone, hnewer,
    ⟨update, hanswer⟩, hreports, ⟨next, replacing, happlied, hreplaced⟩, -⟩ := exists_overtaken_run
  have ran := (((Run.nil.step hfirst).step hnoted).step hsecond).step hshown
  refine ⟨_, shown.engine, next, replacing, rfl, ran, ?_, ?_, hreports, happlied, hreplaced⟩
  · simp [issued, Event.ticket?, holder, hnone, hnewer, hanswer]
  · exact ⟨_, List.mem_append_right _ List.mem_cons_self, update, Or.inl ⟨_, rfl, hanswer⟩⟩

/-- After an edit the results of the older run are not shown any more. -/
theorem complete_older_iff_after_edit :
    let doc : Document := .ofText "main" ['a', 'b']
    let new : Report := ⟨.error ⟨"main", ⟨1, 2⟩⟩ "new", .host 1⟩
    let e : Edit := ⟨2, 3, [⟨2, [⟨⟨1, 1⟩, ['x']⟩]⟩]⟩
    ∃ events en,
      events.map (·.operation) =
        [.force 0, .noteConfigChange 1, .force 2, .complete ⟨2, 0⟩ [⟨[new], 0⟩], .edit e 3] ∧
      Run (attach doc .standard 0) events en ∧ issued events = [⟨1, 0⟩, ⟨2, 0⟩] ∧
      (∃ ev ∈ events, ev.Shows ⟨2, 0⟩) ∧
      ∀ batches, ¬ ∃ next update, en.complete ⟨1, 0⟩ batches = .ok (next, .applied update) := by
  intro doc new e
  obtain ⟨first, noted, second, shown, hfirst, hnoted, hsecond, hshown, holder, hnone, hnewer,
    ⟨update, hanswer⟩, -, -, made, taken, hmade, htaken⟩ := exists_overtaken_run
  let asked : List Event := [⟨attach doc .standard 0, ⟨0, 0⟩, .force 0, first⟩,
    ⟨first.engine, ⟨0, 0⟩, .noteConfigChange 1, noted⟩, ⟨noted.engine, ⟨0, 0⟩, .force 2, second⟩]
  let showing : Event := ⟨second.engine, ⟨0, 0⟩, .complete ⟨2, 0⟩ [⟨[new], 0⟩], shown⟩
  let editing : Event := ⟨shown.engine, ⟨0, 0⟩, .edit e 3, made⟩
  have ran : Run (attach doc .standard 0) (asked ++ showing :: [editing]) made.engine :=
    ((((Run.nil.step hfirst).step hnoted).step hsecond).step hshown).step hmade
  have hshows : showing.Shows ⟨2, 0⟩ := ⟨update, Or.inl ⟨_, rfl, hanswer⟩⟩
  have alters : editing.Alters := ⟨.ofEdit e, taken, rfl, rfl, htaken⟩
  have hissued : issued (asked ++ showing :: [editing]) = [⟨1, 0⟩, ⟨2, 0⟩] := by
    simp [issued, asked, showing, editing, Event.ticket?, holder, hnone, hnewer, hanswer, htaken]
  have hold : (⟨1, 0⟩ : Ticket) ∈ issued (asked ++ showing :: [editing]) :=
    hissued ▸ List.mem_cons_self
  have hnew : (⟨2, 0⟩ : Ticket) ∈ issued (asked ++ showing :: [editing]) :=
    hissued ▸ List.mem_cons_of_mem _ List.mem_cons_self
  refine ⟨asked ++ showing :: [editing], made.engine, rfl, ran, hissued,
    ⟨showing, List.mem_append_right asked List.mem_cons_self, hshows⟩, fun batches happlied => ?_⟩
  obtain ⟨-, kept⟩ := (complete_older_iff ran hold hnew (by decide) hshows batches).1.mp happlied
  exact (kept editing List.mem_cons_self).1 alters

end Marginalia.Engine
