import Marginalia.Proofs.Engine.Dispatch
import Marginalia.Proofs.Engine.Panel
import Marginalia.Proofs.Store.Navigation

/-!
# Going round the reports

A move to an annotation tells the editor to select it, and selects it in the store. That is all it
does to an engine that a run has led to, besides the mark in the panel: it cannot fail, since the
store passes its check and goes on doing so. An editor that selects what it is told to is then at
the annotation, so the next move goes on from there, and as many moves as there are places lead
round all of them.
-/

namespace Marginalia

namespace HostCall

/-- What the editor has selected after some calls. -/
def selectionAfterAll (current : Extent) (calls : List HostCall) : Extent :=
  calls.foldl selectionAfter current

end HostCall

namespace Engine

open HostCall (selectionAfterAll)
open Store (places Leads following selectionOf)

variable {en start last : Engine} {events : List Event} {cursor : Extent} {a : Annotation}
  {reply : Reply Bool}

/-- What moves rely on: the store passes its check, and there is a panel exactly while the store
says that it is open. -/
structure Settled (en : Engine) : Prop where
  valid : en.store.Valid en.doc.length
  present : en.panel.isSome = en.store.panelOpen

/-- Runs lead to engines in which one can move. -/
theorem Run.settled {doc : Document} {options : Options} {now : Nat}
    (ran : Run (attach doc options now) events en) : en.Settled where
  valid := ran.valid (Store.valid_empty doc.length)
  present := (ran.panelFollows (panelFollows_attach doc options now)).present

/-- The engine with another selection, which the panel follows. -/
def selecting (en : Engine) (selection : Selection) : Engine :=
  let store := { en.store with selected := some selection, version := en.store.version + 1 }
  { en with store, panel := en.panel.map fun p => (p.sync store).1 }

/-- The reply that tells the editor to select an annotation of the store. The store has it selected
then, and its annotations, the gutter and the document are as they were. -/
structure MovesTo (en : Engine) (a : Annotation) (reply : Reply Bool) : Prop where
  held : a ∈ en.store.annotations
  answered : reply.answer = true
  told : reply.calls = [.select a.extent.start a.extent.stop]
  arrives : ∀ cursor, selectionAfterAll cursor reply.calls = a.extent
  selected : reply.engine.store.selected = some (selectionOf a)
  annotations : reply.engine.store.annotations = en.store.annotations
  gutter : reply.engine.gutter = en.gutter
  doc : reply.engine.doc = en.doc

/-- Going forward again and again, with an editor that selects what it is told to: each time the
reply moves to an annotation, and `visited` is what the editor has selected then. -/
inductive Tours : Engine → Extent → List Extent → Engine → Prop where
  | nil {en : Engine} {cursor : Extent} : Tours en cursor [] en
  | step {en last : Engine} {cursor : Extent} {reply : Reply Bool} {a : Annotation}
      {visited : List Extent} (moved : en.selectNext cursor = .ok reply)
      (arrived : en.MovesTo a reply)
      (rest : Tours reply.engine (selectionAfterAll cursor reply.calls) visited last) :
      Tours en cursor (selectionAfterAll cursor reply.calls :: visited) last

/-- Selecting a report of the store goes through and does nothing else. -/
theorem commitEffects_select (settled : en.Settled) {selection : Selection}
    (held : selection.report ∈ en.store.reports) :
    ∃ update, en.commitEffects [.select selection] = .ok (en.selecting selection, update) := by
  obtain ⟨valid, present⟩ := settled
  let store := { en.store with selected := some selection, version := en.store.version + 1 }
  have hvalid : store.Valid en.doc.length := by
    refine ⟨valid.ascends, valid.inside, valid.narrow, fun chosen hchosen => ?_⟩
    obtain rfl := Option.some.inj hchosen
    exact held
  have hupdate : en.store.update ⟨none, [.select selection]⟩ en.doc = .ok store :=
    Store.update_eq_ok_iff.mpr ⟨hvalid, rfl⟩
  obtain ⟨update, hcommit⟩ := exists_commit en.doc hupdate
  refine ⟨update, hcommit.trans ?_⟩
  have hhover : (en.commitHover ⟨none, [.select selection]⟩ en.doc).1 = en.hover := by
    rw [commitHover]
    split
    case h_1 hnone => exact hnone.symm
    case h_2 h hsome => exact hsome.symm
  have hpanel : (en.commitPanel store).1 = en.panel.map fun p => (p.sync store).1 := by
    have hopen : store.panelOpen = en.panel.isSome := present.symm
    rw [commitPanel, hopen]
    cases en.panel <;> rfl
  rw [committed, hhover, hpanel]
  rfl

/-- Moving to an annotation goes through. -/
theorem exists_moveTo (settled : en.Settled) (ha : a ∈ en.store.annotations) :
    ∃ reply, en.moveTo (some (selectionOf a)) = .ok reply ∧ en.MovesTo a reply ∧
      reply.engine = en.selecting (selectionOf a) := by
  have hheld : (selectionOf a).report ∈ en.store.reports := List.mem_map_of_mem ha
  obtain ⟨update, hcommit⟩ := commitEffects_select settled hheld
  have hmoved : en.moveTo (some (selectionOf a)) = .ok ⟨en.selecting (selectionOf a), true,
      [.select a.extent.start a.extent.stop]⟩ := by
    rw [moveTo, hcommit]
    rfl
  have hordered := (settled.valid.inside a ha).1
  refine ⟨_, hmoved, ⟨ha, rfl, rfl, fun cursor => ?_, rfl, rfl, rfl, rfl⟩, rfl⟩
  exact Extent.eq_of_start_of_stop (Nat.min_eq_left hordered) (Nat.max_eq_right hordered)

/-- Going forward moves to the annotation that follows. -/
theorem exists_selectNext (settled : en.Settled)
    (found : following en.store.annotations cursor = some a) :
    ∃ reply, en.selectNext cursor = .ok reply ∧ en.MovesTo a reply ∧
      reply.engine = en.selecting (selectionOf a) := by
  rw [selectNext, found]
  exact exists_moveTo settled (Store.mem_of_following found)

/-- One can go on moving after a move. -/
theorem Settled.selecting (settled : en.Settled) (ha : a ∈ en.store.annotations) :
    (en.selecting (selectionOf a)).Settled := by
  obtain ⟨⟨ascends, inside, narrow, -⟩, present⟩ := settled
  refine ⟨⟨ascends, inside, narrow, fun chosen hchosen => ?_⟩, ?_⟩
  · obtain rfl := Option.some.inj hchosen
    exact List.mem_map_of_mem ha
  · exact Option.isSome_map.trans present

/-- Moves that lead from place to place are a tour. -/
theorem exists_tours {visited : List Extent} (settled : en.Settled)
    (leads : (cursor :: visited).IsChain (Leads (following en.store.annotations))) :
    ∃ last, Tours en cursor visited last := by
  induction visited generalizing en cursor with
  | nil => exact ⟨en, .nil⟩
  | cons e visited ih =>
    obtain ⟨⟨a, found, rfl⟩, hrest⟩ := List.isChain_cons_cons.mp leads
    obtain ⟨reply, moved, arrived, hnext⟩ := exists_selectNext settled found
    have hsettled : reply.engine.Settled := hnext ▸ settled.selecting arrived.held
    rw [← arrived.annotations] at hrest
    obtain ⟨last, rest⟩ := ih hsettled hrest
    rw [← arrived.arrives cursor] at rest ⊢
    exact ⟨last, .step moved arrived rest⟩

/-- In every engine that a run leads to, with reports in the store: the places are in ascending
order. From one of several places, with an editor that selects what it is told to, as many moves
forward as there are places lead through the places above, then through those below, and end where
they began. At a single place nothing happens. From anywhere else one move leads to what is ahead.
Each move that is answered with true leaves the store with an annotation selected that the editor is
at, and with its annotations, the gutter and the document as they were. -/
theorem next_goes_round {doc : Document} {options : Options} {begun : Nat}
    (ran : Run (attach doc options begun) events en) (listed : en.store.annotations ≠ []) :
    (places en.store.annotations).Pairwise (· < ·) ∧
    (∀ before e after, places en.store.annotations = before ++ e :: after →
      (after ++ before ≠ [] → ∃ last, Tours en e (after ++ before ++ [e]) last) ∧
      (after ++ before = [] → en.selectNext e = .ok ⟨en, false, []⟩)) ∧
    (∀ cursor, cursor ∉ places en.store.annotations → ∃ a reply,
      Store.Ahead en.store.annotations cursor a ∧
      en.selectNext cursor = .ok reply ∧ en.MovesTo a reply) ∧
    ∀ cursor reply, en.selectNext cursor = .ok reply → reply.answer = true →
      ∃ a, en.MovesTo a reply := by
  have settled := ran.settled
  have ascends := settled.valid.ascends
  refine ⟨Store.places_pairwise ascends,
    fun before e after hplaces => ⟨fun others => ?_, fun alone => ?_⟩, fun cursor away => ?_,
    fun cursor reply hreply answered => ?_⟩
  · exact exists_tours settled (Store.isChain_following_round ascends hplaces others)
  · obtain ⟨rfl, rfl⟩ := List.append_eq_nil_iff.mp alone
    rw [selectNext, (Store.moves_eq_none_of_alone ascends hplaces).1]
    rfl
  · obtain ⟨a, found, ahead⟩ := Store.exists_following_of_notMem ascends away listed
    obtain ⟨reply, moved, arrived, -⟩ := exists_selectNext settled found
    exact ⟨a, reply, ahead, moved, arrived⟩
  · cases found : following en.store.annotations cursor with
    | none =>
      rw [selectNext, found] at hreply
      obtain rfl := Except.ok.inj hreply
      exact absurd answered Bool.false_ne_true
    | some a =>
      obtain ⟨reply', moved, arrived, -⟩ := exists_selectNext settled found
      obtain rfl := Except.ok.inj (hreply.symm.trans moved)
      exact ⟨a, arrived⟩

/-- Two reports of one place, one that covers them and a point: three moves from the wide one go
round the three places, and from between them the next move goes to the point. -/
theorem next_goes_round_three_places :
    let doc : Document := .ofText "main" ['a', 'b', 'c', 'd']
    let lower : Report := ⟨.error ⟨"main", ⟨0, 1⟩⟩ "lower", .host 0⟩
    let upper : Report := ⟨.error ⟨"main", ⟨0, 1⟩⟩ "upper", .host 1⟩
    let wide : Report := ⟨.error ⟨"main", ⟨0, 4⟩⟩ "wide", .host 2⟩
    let point : Report := ⟨.error ⟨"main", ⟨2, 2⟩⟩ "point", .host 3⟩
    let fill : Transaction := .ofReports [wide, point, lower, upper]
    ∃ events en, events.map (·.operation) = [.dispatch fill 0] ∧
      Run (attach doc .standard 0) events en ∧ en.store.annotations ≠ [] ∧
      places en.store.annotations = [⟨0, 1⟩, ⟨0, 4⟩, ⟨2, 2⟩] ∧
      (∃ last, Tours en ⟨0, 4⟩ [⟨2, 2⟩, ⟨0, 1⟩, ⟨0, 4⟩] last) ∧
      ∃ a reply, Store.Ahead en.store.annotations ⟨1, 1⟩ a ∧
        en.selectNext ⟨1, 1⟩ = .ok reply ∧ en.MovesTo a reply := by
  intro doc lower upper wide point fill
  obtain ⟨filled, performed, hplaces⟩ : ∃ filled,
      (attach doc .standard 0).perform ⟨0, 0⟩ (.dispatch fill 0) = .ok filled ∧
        places filled.engine.store.annotations = [⟨0, 1⟩, ⟨0, 4⟩, ⟨2, 2⟩] :=
    ⟨_, rfl, by decide +kernel⟩
  have ran := Run.nil.step performed
  have listed : filled.engine.store.annotations ≠ [] := by
    intro hnil
    rw [hnil] at hplaces
    exact List.cons_ne_nil _ _ hplaces.symm
  have away : ⟨1, 1⟩ ∉ places filled.engine.store.annotations := by
    rw [hplaces]
    decide
  obtain ⟨-, round, elsewhere, -⟩ := next_goes_round ran listed
  exact ⟨_, _, rfl, ran, listed, hplaces, (round [⟨0, 1⟩] ⟨0, 4⟩ [⟨2, 2⟩] hplaces).1 nofun,
    elsewhere ⟨1, 1⟩ away⟩

end Engine

end Marginalia
