import Marginalia.Proofs.Engine.Run
import Marginalia.Proofs.View.Panel

/-!
# The panel follows the store

After every operation of a run, whatever the operations are and in whatever order they come, there
is a panel exactly while the store says that it is open, and the panel shows the store. Only a
commit changes the store or the panel, and a commit brings the one in line with the other: it
patches a panel that is open already, fills a new one and drops one that was closed.
-/

namespace Marginalia.Engine

variable {en : Engine}

/-- A commit leaves a panel exactly if the store says that it is open. -/
theorem isSome_commitPanel (en : Engine) (store : Store) :
    (en.commitPanel store).1.isSome = store.panelOpen := by
  unfold commitPanel
  split
  case h_1 hopen _ => rw [hopen]; rfl
  case h_2 hopen _ => rw [hopen]; rfl
  case h_3 hopen _ => rw [hopen]; rfl
  case h_4 hopen _ => rw [hopen]; rfl

/-- A panel after a commit is the one before, or an empty one, brought in line with the store. -/
theorem exists_sync_of_commitPanel {store : Store} {p : Panel}
    (h : (en.commitPanel store).1 = some p) :
    ∃ old, (en.panel = some old ∨ old = .empty) ∧ p = (old.sync store).1 := by
  unfold commitPanel at h
  split at h
  case h_1 old _ hold => exact ⟨old, Or.inl hold, (Option.some.inj h).symm⟩
  case h_2 => exact ⟨.empty, Or.inr rfl, (Option.some.inj h).symm⟩
  case h_3 => simp at h
  case h_4 => simp at h

/-- What holds of the panel and the store at every time: there is a panel while the store says
that it is open, the panel shows the store under different ids, and the store holds the report that
it has selected. -/
structure PanelFollows (en : Engine) : Prop where
  present : en.panel.isSome = en.store.panelOpen
  shows : ∀ p, en.panel = some p → p.Shows en.store
  distinct : ∀ p, en.panel = some p → p.Distinct
  held : ∀ selection, en.store.selected = some selection → selection.report ∈ en.store.reports

/-- In the beginning there is no panel. -/
theorem panelFollows_attach (doc : Document) (options : Options) (now : Nat) :
    (attach doc options now).PanelFollows := ⟨rfl, nofun, nofun, nofun⟩

/-- After a commit the panel follows the store. -/
theorem panelFollows_committed {t : Transaction} {store : Store} (before : Document)
    (distinct : ∀ p, en.panel = some p → p.Distinct) (h : en.store.update t en.doc = .ok store) :
    (en.committed t before store).PanelFollows where
  present := isSome_commitPanel en store
  shows := by
    intro p hp
    obtain ⟨old, -, rfl⟩ := exists_sync_of_commitPanel hp
    exact Panel.shows_sync old store
  distinct := by
    intro p hp
    obtain ⟨old, hold, rfl⟩ := exists_sync_of_commitPanel hp
    rcases hold with hold | rfl
    · exact (distinct old hold).sync store
    · exact Panel.distinct_empty.sync store
  held := (Store.valid_of_update h).held

/-- An operation keeps the panel following the store. -/
theorem PanelFollows.perform (follows : en.PanelFollows) {cursor : Extent} {op : Operation}
    {reply : Reply Answer} (h : en.perform cursor op = .ok reply) : reply.engine.PanelFollows := by
  rcases commits_of_perform h with
    ⟨hstore, -, hpanel⟩ | ⟨found, t, before, store, -, hpanel, hstore, hnext⟩
  · obtain ⟨present, shows, distinct, held⟩ := follows
    rw [← hstore, ← hpanel] at present shows
    rw [← hpanel] at distinct
    rw [← hstore] at held
    exact ⟨present, shows, distinct, held⟩
  · rw [hnext]
    refine panelFollows_committed before (fun p hp => follows.distinct p ?_) hstore
    rw [← hpanel, hp]

/-- A run keeps the panel following the store. -/
theorem Run.panelFollows {start : Engine} {events : List Event} (ran : Run start events en)
    (follows : start.PanelFollows) : en.PanelFollows := by
  induction ran with
  | nil => exact follows
  | step earlier performed ih => exact ih.perform performed

/-- After every operation of a run from the start there is a panel exactly while the store says
that it is open. It lists the reports of the store one for one and in their order, it has selected
the first item of the selected report and no other one, and none without a selected report, and
its items have different ids. -/
theorem panel_shows_store {doc : Document} {options : Options} {now : Nat} {events : List Event}
    (ran : Run (attach doc options now) events en) :
    en.panel.isSome = en.store.panelOpen ∧ ∀ p, en.panel = some p →
      p.items.map (·.report) = en.store.reports ∧
      p.items.countP (·.selected) ≤ 1 ∧
      p.selectedIndex = (en.store.selected.bind fun selection =>
        p.items.findIdx? (·.report == selection.report)) ∧
      p.selectedIndex.isSome = en.store.selected.isSome ∧
      (p.items.map (·.id)).Nodup := by
  have follows := ran.panelFollows (panelFollows_attach doc options now)
  refine ⟨follows.present, fun p hp => ?_⟩
  have shows := follows.shows p hp
  exact ⟨shows.lists, shows.single, shows.chosen, shows.isSome_selectedIndex follows.held,
    (follows.distinct p hp).nodup⟩

/-- A panel that lists one report twice has its last report selected, and then the text of a report
between them is deleted. -/
private theorem exists_panel_after_deletion :
    let doc : Document := .ofText "main" ['a', 'b', 'c', 'd']
    let twice : Report := ⟨.error ⟨"main", ⟨0, 1⟩⟩ "twice", .host 0⟩
    let gone : Report := ⟨.error ⟨"main", ⟨1, 2⟩⟩ "gone", .host 1⟩
    let last : Report := ⟨.error ⟨"main", ⟨2, 4⟩⟩ "last", .host 2⟩
    let fill : Transaction := ⟨none,
      [.setPanel true, .setReports [twice, last, gone, twice] .first, .select ⟨⟨2, 4⟩, last⟩]⟩
    let e : Edit := ⟨4, 3, [⟨4, [⟨⟨1, 2⟩, []⟩]⟩]⟩
    ∃ filled made p, (attach doc .standard 0).perform ⟨0, 0⟩ (.dispatch fill 0) = .ok filled ∧
      filled.engine.perform ⟨0, 0⟩ (.edit e 1) = .ok made ∧ made.engine.panel = some p ∧
      made.engine.store.reports = [twice, twice, last] ∧ p.selectedIndex = some 2 :=
  ⟨_, _, _, rfl, rfl, rfl, rfl, rfl⟩

/-- The panel has let the deleted report go and still has the last report selected. -/
theorem panel_shows_store_after_deletion :
    let doc : Document := .ofText "main" ['a', 'b', 'c', 'd']
    let twice : Report := ⟨.error ⟨"main", ⟨0, 1⟩⟩ "twice", .host 0⟩
    let gone : Report := ⟨.error ⟨"main", ⟨1, 2⟩⟩ "gone", .host 1⟩
    let last : Report := ⟨.error ⟨"main", ⟨2, 4⟩⟩ "last", .host 2⟩
    let fill : Transaction := ⟨none,
      [.setPanel true, .setReports [twice, last, gone, twice] .first, .select ⟨⟨2, 4⟩, last⟩]⟩
    let e : Edit := ⟨4, 3, [⟨4, [⟨⟨1, 2⟩, []⟩]⟩]⟩
    ∃ events en p, events.map (·.operation) = [.dispatch fill 0, .edit e 1] ∧
      Run (attach doc .standard 0) events en ∧ en.panel = some p ∧
      p.items.map (·.report) = [twice, twice, last] ∧ p.selectedIndex = some 2 ∧
      (p.items.map (·.id)).Nodup := by
  obtain ⟨filled, made, p, hfilled, hmade, hp, hreports, hindex⟩ := exists_panel_after_deletion
  have ran := (Run.nil.step hfilled).step hmade
  obtain ⟨lists, -, -, -, different⟩ := (panel_shows_store ran).2 p hp
  exact ⟨_, _, p, rfl, ran, hp, lists.trans hreports, hindex, different⟩

end Marginalia.Engine
