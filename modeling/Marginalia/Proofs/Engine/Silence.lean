import Marginalia.Proofs.Engine.Freshness

/-!
# Detached engines are silent

An engine that was detached never acts by itself again, whatever the host goes on to do with it.
Times are kept in two places, for the next evaluation and at each marker of the gutter. Detaching
clears both, and no operation on a detached engine sets either: changes are not waited for, markers
that are moved or made anew have no time, and a pointer is not responded to.
-/

namespace Marginalia.Engine

variable {en start : Engine} {t : Transaction} {events : List Event}

/-- The engine was detached, and no time is running in it. -/
structure Silent (en : Engine) : Prop where
  detached : en.isAttached = false
  untimed : en.debounce.timer = none
  rests : en.gutter.Rests

/-- A detached engine is silent, whatever was running. -/
theorem silent_detach (en : Engine) : en.detach.Silent := ⟨rfl, rfl, Gutter.rests_cancel en.gutter⟩

/-- A commit keeps a gutter at rest. -/
theorem rests_commitGutter (rests : en.gutter.Rests) (t : Transaction) (before : Document)
    (store : Store) : (en.commitGutter t before store).1.Rests := by
  have hrebuilt (g : Gutter) := g.rests_rebuild store en.doc en.options.gutter.markerFilter
  unfold commitGutter
  cases t.change with
  | none =>
    dsimp only
    split
    case isTrue => exact hrebuilt en.gutter
    case isFalse => exact rests
  | some e =>
    dsimp only
    split
    case isTrue => exact hrebuilt (en.gutter.carry e before en.doc).1
    case isFalse => exact rests.carry e before en.doc

/-- No operation stirs the gutter of a silent engine. -/
theorem Silent.rests_of_perform (silent : en.Silent) {cursor : Extent} {op : Operation}
    {reply : Reply Answer} (h : en.perform cursor op = .ok reply) :
    reply.engine.gutter.Rests := by
  cases outcome en cursor op with
  | dispatched t now carries is =>
    obtain ⟨⟨next, answer⟩, hdispatch, rfl⟩ := exists_of_map_eq_ok (is.symm.trans h)
    rcases dispatch_cases hdispatch with ⟨rfl, -⟩ | ⟨doc, store, update, -, -, -, rfl⟩
    · exact silent.rests
    · have hmoved : (en.moved t doc now).gutter.Rests := silent.rests
      exact rests_commitGutter hmoved t en.doc store
  | acted bare stays acts =>
    rw [h] at acts
    rcases acts.engine_cases with hsame | ⟨key, effect, store, -, -, hnext⟩
    · rw [hsame]
      exact silent.rests
    · have hkeyed : Gutter.Rests (gutter { en with nextKey := key }) := silent.rests
      rw [hnext]
      exact rests_commitGutter hkeyed _ _ store
  | detached left answer is =>
    obtain rfl := Except.ok.inj (is.symm.trans h)
    exact Gutter.rests_cancel en.gutter
  | waited bare stays debounce gutter hover options answer continues keeps rests is =>
    obtain rfl := Except.ok.inj (is.symm.trans h)
    exact rests silent.detached silent.rests

/-- No operation wakes a silent engine. -/
theorem Silent.perform (silent : en.Silent) {cursor : Extent} {op : Operation}
    {reply : Reply Answer} (h : en.perform cursor op = .ok reply) : reply.engine.Silent := by
  have hrests := silent.rests_of_perform h
  rcases debounce_of_perform h with ⟨-, hdebounce⟩ | ⟨-, continues⟩
  · refine ⟨?_, ?_, hrests⟩
    · rw [isAttached, hdebounce]
      rfl
    · rw [hdebounce]
      rfl
  · refine ⟨?_, continues.idle silent.detached silent.untimed, hrests⟩
    rw [isAttached, continues.attached]
    exact silent.detached

/-- A run keeps a silent engine silent. -/
theorem Run.silent (ran : Run start events en) (silent : start.Silent) : en.Silent := by
  induction ran with
  | nil => exact silent
  | step earlier performed ih => exact ih.perform performed

/-- A run in which the engine is detached leaves it silent. -/
theorem Run.silent_of_detach (ran : Run start events en)
    (left : ∃ ev ∈ events, ev.operation = .detach) : en.Silent := by
  obtain ⟨ev, hev, hdetach⟩ := left
  obtain ⟨earlier, later, rfl⟩ := List.append_of_mem hev
  obtain ⟨found, -, hrest⟩ := ran.of_append
  obtain ⟨performed, since⟩ := hrest.of_cons
  rw [hdetach] at performed
  obtain hreply := Except.ok.inj performed
  refine since.silent ?_
  rw [← hreply]
  exact silent_detach found

/-- A detached engine stays silent for good, however the run goes on. It has no deadline and no
pop-up; polls, forced runs and pointers on markers come to nothing and change nothing; and results
are dropped, also gathered ones, with everything left as it is. -/
theorem detached_stays_silent (ran : Run start events en)
    (left : ∃ ev ∈ events, ev.operation = .detach) :
    en.nextDeadline = none ∧ en.gutter.popup = none ∧
      (∀ now, en.poll now = (en, none) ∧ en.force now = (en, none) ∧
        en.gutterPoll now = (en, none)) ∧
      (∀ lineStart now, en.gutterOver lineStart now = (en, false)) ∧
      (∀ ticket batches, en.complete ticket batches = .ok (en, .detached)) ∧
      ∀ g, en.completeGathered g = .ok (en, g.results?.map fun _ => .detached) := by
  obtain ⟨detached, untimed, rests⟩ := ran.silent_of_detach left
  refine ⟨?_, rests.closed, fun now => ⟨?_, ?_, ?_⟩, fun lineStart now => ?_,
    fun ticket batches => ?_, fun g => ?_⟩
  · rw [nextDeadline, untimed, Gutter.nextDue_of_idle rests.idle]
    rfl
  · rw [poll, Debounce.poll, untimed]
    rfl
  · rw [force, Debounce.force, untimed]
    rfl
  · rw [gutterPoll, rests.poll_eq]
  · rw [gutterOver, detached]
    rfl
  · exact complete_of_detached ticket batches detached
  · unfold completeGathered
    split
    case h_1 hresults => rw [hresults]; rfl
    case h_2 batches hresults =>
      rw [complete_of_detached g.ticket batches detached, hresults]
      rfl

/-- An engine is detached while a run is under way and a pointer rests on a marker, and is edited
and given reports after that. -/
private theorem exists_silent_after_edit :
    let doc : Document := .ofText "main" ['a', 'b']
    let wrong : Report := ⟨.error ⟨"main", ⟨0, 1⟩⟩ "wrong", .host 0⟩
    let e : Edit := ⟨2, 3, [⟨2, [⟨⟨1, 1⟩, ['x']⟩]⟩]⟩
    ∃ asked shown pointed left made replaced,
      (attach doc .standard 0).perform ⟨0, 0⟩ (.force 1) = .ok asked ∧
      asked.engine.perform ⟨0, 0⟩ (.setReports [wrong] 2) = .ok shown ∧
      shown.engine.perform ⟨0, 0⟩ (.gutterOver 0 3) = .ok pointed ∧
      pointed.engine.perform ⟨0, 0⟩ .detach = .ok left ∧
      left.engine.perform ⟨0, 0⟩ (.edit e 4) = .ok made ∧
      made.engine.perform ⟨0, 0⟩ (.setReports [wrong] 5) = .ok replaced :=
  ⟨_, _, _, _, _, _, rfl, rfl, rfl, rfl, rfl, rfl⟩

/-- Nothing is due in it any more, and the results of the run are dropped. -/
theorem detached_stays_silent_after_edit :
    let doc : Document := .ofText "main" ['a', 'b']
    let wrong : Report := ⟨.error ⟨"main", ⟨0, 1⟩⟩ "wrong", .host 0⟩
    let e : Edit := ⟨2, 3, [⟨2, [⟨⟨1, 1⟩, ['x']⟩]⟩]⟩
    ∃ events en, events.map (·.operation) = [.force 1, .setReports [wrong] 2, .gutterOver 0 3,
        .detach, .edit e 4, .setReports [wrong] 5] ∧
      Run (attach doc .standard 0) events en ∧ en.nextDeadline = none ∧
      en.gutterOver 0 6 = (en, false) ∧ en.complete ⟨1, 0⟩ [] = .ok (en, .detached) := by
  intro doc wrong e
  obtain ⟨asked, shown, pointed, left, made, replaced, hasked, hshown, hpointed, hleft, hmade,
    hreplaced⟩ := exists_silent_after_edit
  have ran :=
    (((((Run.nil.step hasked).step hshown).step hpointed).step hleft).step hmade).step hreplaced
  let leaving : Event := ⟨pointed.engine, ⟨0, 0⟩, .detach, left⟩
  obtain ⟨hdeadline, -, -, hover, hcomplete, -⟩ :=
    detached_stays_silent ran ⟨leaving, by simp [leaving], rfl⟩
  exact ⟨_, _, rfl, ran, hdeadline, hover 0 6, hcomplete ⟨1, 0⟩ []⟩

end Marginalia.Engine
