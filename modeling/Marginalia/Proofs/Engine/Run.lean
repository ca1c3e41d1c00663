import Marginalia.Engine.Operation
import Marginalia.Proofs.Store.Soundness
import Marginalia.Proofs.View.Rest

/-!
# Runs of an engine

A run is a list of operations that follow each other without a fault, each with the engine that
it found and the reply that it gave. What an operation comes to is said once: it dispatches a
transaction of the host, or leaves the engine alone, or commits one effect that the store offers,
or concerns only the waiting and the views. Statements on runs are proved from these cases.
-/

namespace Marginalia

namespace Debounce

/-- The waiting goes on: changes lead to runs if they did before, and a wait that is over in an
engine that was detached does not begin again. -/
structure Continues (d next : Debounce) : Prop where
  attached : next.attached = d.attached
  idle : d.attached = false → d.timer = none → next.timer = none

/-- Nothing has happened. -/
theorem Continues.refl (d : Debounce) : d.Continues d := ⟨rfl, fun _ h => h⟩

/-- The waiting goes on after a change. -/
theorem continues_noteChange (d : Debounce) (now : Nat) : d.Continues (d.noteChange now) := by
  unfold noteChange
  split
  case isTrue h => exact ⟨rfl, fun hdetached _ => by rw [h] at hdetached; contradiction⟩
  case isFalse => exact .refl d

/-- The waiting goes on with another quiet period. -/
theorem continues_setDelay (d : Debounce) (delay now : Nat) :
    d.Continues (d.setDelay delay now) := by
  obtain ⟨attached, idle⟩ := continues_noteChange { d with delay } now
  exact ⟨attached, idle⟩

/-- The waiting goes on when the timer is asked. -/
theorem continues_poll (d : Debounce) (now version : Nat) :
    d.Continues (d.poll now version).1 := by
  unfold poll
  split
  case h_1 => exact .refl d
  case h_2 due hdue =>
    split
    case isTrue => exact .refl d
    case isFalse =>
      split
      case isTrue => exact ⟨rfl, fun _ hnone => by rw [hdue] at hnone; contradiction⟩
      case isFalse => exact ⟨rfl, fun _ _ => rfl⟩

/-- The waiting goes on when a run is forced. -/
theorem continues_force (d : Debounce) (now version : Nat) :
    d.Continues (d.force now version).1 := by
  unfold force
  split
  case h_1 => exact .refl d
  case h_2 => exact ⟨rfl, fun _ _ => rfl⟩

end Debounce

namespace Engine

/-- An operation of a run, with the engine that it finds, the extent that the editor has selected
by then, and the reply. -/
structure Event where
  before : Engine
  cursor : Extent
  operation : Operation
  reply : Reply Answer

/-- The operations of `events`, one after another, lead from `start` to an engine. -/
inductive Run (start : Engine) : List Event → Engine → Prop where
  | nil : Run start [] start
  | step {events : List Event} {en : Engine} {cursor : Extent} {op : Operation}
      {reply : Reply Answer} (earlier : Run start events en)
      (performed : en.perform cursor op = .ok reply) :
      Run start (events ++ [⟨en, cursor, op, reply⟩]) reply.engine

/-- A run of two parts stops between them. -/
theorem Run.of_append {start en : Engine} {first rest : List Event}
    (ran : Run start (first ++ rest) en) : ∃ mid, Run start first mid ∧ Run mid rest en := by
  generalize hevents : first ++ rest = events at ran
  induction ran generalizing rest with
  | nil =>
    obtain ⟨rfl, rfl⟩ := List.append_eq_nil_iff.mp hevents
    exact ⟨start, .nil, .nil⟩
  | @step events en cursor op reply earlier performed ih =>
    rcases rest.eq_nil_or_concat with rfl | ⟨rest, last, rfl⟩
    · rw [List.append_nil] at hevents
      rw [hevents]
      exact ⟨reply.engine, .step earlier performed, .nil⟩
    · rw [List.concat_eq_append, ← List.append_assoc] at hevents
      obtain ⟨hevents, hlast⟩ := List.append_inj' hevents rfl
      obtain ⟨mid, hfirst, hrest⟩ := ih hevents
      rw [List.concat_eq_append, hlast]
      exact ⟨mid, hfirst, .step hrest performed⟩

/-- A run without operations stays at its start. -/
theorem Run.eq_of_nil {start en : Engine} (ran : Run start [] en) : en = start := by
  generalize hevents : ([] : List Event) = events at ran
  cases ran with
  | nil => rfl
  | step earlier performed => simp at hevents

/-- A run begins with its first operation. -/
theorem Run.of_cons {start en : Engine} {ev : Event} {rest : List Event}
    (ran : Run start (ev :: rest) en) :
    start.perform ev.cursor ev.operation = .ok ev.reply ∧ Run ev.reply.engine rest en := by
  obtain ⟨mid, hfirst, hrest⟩ := (show Run start ([ev] ++ rest) en from ran).of_append
  generalize hevents : [ev] = events at hfirst
  cases hfirst with
  | nil => simp at hevents
  | @step events found cursor op reply earlier performed =>
    obtain ⟨rfl, rfl⟩ : events = [] ∧ ⟨found, cursor, op, reply⟩ = ev := by
      simpa [List.singleton_eq_append_iff] using hevents
    rw [← earlier.eq_of_nil]
    exact ⟨performed, hrest⟩

/-- An event of a run has its place in it: a run leads to the engine that it finds. -/
theorem Run.of_mem {start en : Engine} {events : List Event} {ev : Event}
    (ran : Run start events en) (h : ev ∈ events) :
    ∃ earlier later, events = earlier ++ ev :: later ∧ Run start earlier ev.before ∧
      ev.before.perform ev.cursor ev.operation = .ok ev.reply := by
  induction ran with
  | nil => contradiction
  | step earlier performed ih =>
    rcases List.mem_append.mp h with h | h
    · obtain ⟨first, later, rfl, hran, done⟩ := ih h
      exact ⟨first, _, List.append_assoc first (ev :: later) _, hran, done⟩
    · obtain rfl := List.mem_singleton.mp h
      exact ⟨_, [], rfl, earlier, performed⟩

/-- What holds at first and after every event of a run holds in the end. -/
theorem Run.last_of_forall {start en : Engine} {events : List Event} {P : Engine → Prop}
    (ran : Run start events en) (begun : P start)
    (holds : ∀ ev ∈ events, P ev.reply.engine) : P en := by
  cases ran with
  | nil => exact begun
  | step earlier performed => exact holds _ (List.mem_append_right _ List.mem_cons_self)

/-- What holds at first, and is kept by an event exactly if that is no bad one, holds after every
event of a run exactly if none is bad. -/
theorem Run.forall_iff {start en : Engine} {events : List Event} {P : Engine → Prop}
    {bad : Event → Prop} (ran : Run start events en) (begun : P start)
    (steps : ∀ ev ∈ events, P ev.before → (P ev.reply.engine ↔ ¬ bad ev)) :
    (∀ ev ∈ events, P ev.reply.engine) ↔ ∀ ev ∈ events, ¬ bad ev := by
  induction ran with
  | nil => exact iff_of_true (List.forall_mem_nil _) (List.forall_mem_nil _)
  | step earlier performed ih =>
    obtain ⟨hsteps, hlast⟩ := List.forall_mem_append.mp steps
    have hstep := List.forall_mem_singleton.mp hlast
    simp only [List.forall_mem_append, List.forall_mem_singleton, ← ih hsteps]
    exact and_congr_right fun hearlier => hstep (earlier.last_of_forall begun hearlier)

/-- The transaction of the host that an operation dispatches, if it is one that does. -/
def Operation.transaction? : Operation → Option Transaction
  | .edit e _ => some (.ofEdit e)
  | .dispatch t _ => some t
  | _ => none

/-- The engine after a commit that leaves `store`. -/
def committed (en : Engine) (t : Transaction) (before : Document) (store : Store) : Engine :=
  { en with
    store
    gutter := (en.commitGutter t before store).1
    hover := (en.commitHover t before).1
    panel := (en.commitPanel store).1 }

variable {α : Type} {en next : Engine} {t : Transaction} {doc before : Document}
  {update : ViewUpdate}

/-- A commit goes through when the update of the store does. -/
theorem exists_commit {store : Store} (before : Document)
    (h : en.store.update t en.doc = .ok store) :
    ∃ update, en.commit t before = .ok (en.committed t before store, update) := by
  unfold commit
  rw [h]
  exact ⟨_, rfl⟩

/-- A commit updates the store and the views, and nothing else. -/
theorem eq_committed_of_commit (h : en.commit t before = .ok (next, update)) :
    ∃ store, en.store.update t en.doc = .ok store ∧ next = en.committed t before store := by
  unfold commit at h
  split at h
  case h_1 => simp at h
  case h_2 store hstore =>
    obtain ⟨rfl, -⟩ := Prod.mk.inj (Except.ok.inj h)
    exact ⟨store, hstore, rfl⟩

/-- The document that the effects of a transaction find, unless the edit is refused. -/
def edited (en : Engine) (t : Transaction) : Except Edit.Error Document :=
  match t.change with
  | none => .ok en.doc
  | some e => en.doc.apply e

/-- The engine on the document that the effects of a transaction find, with the change noted if the
text has changed. -/
def moved (en : Engine) (t : Transaction) (doc : Document) (now : Nat) : Engine :=
  { en with doc, debounce := if t.changesText then en.debounce.noteChange now else en.debounce }

@[simp] theorem doc_moved (en : Engine) (t : Transaction) (doc : Document) (now : Nat) :
    (en.moved t doc now).doc = doc := rfl

@[simp] theorem store_moved (en : Engine) (t : Transaction) (doc : Document) (now : Nat) :
    (en.moved t doc now).store = en.store := rfl

/-- A transaction is refused with its edit, or committed on the document that it finds. -/
theorem dispatch_eq (en : Engine) (t : Transaction) (now : Nat) :
    en.dispatch t now = match en.edited t with
      | .error error => .ok (en, .error error)
      | .ok doc => ((en.moved t doc now).commit t en.doc).map fun r => (r.1, .ok r.2) := by
  unfold dispatch edited moved Transaction.changesText
  cases t.change with
  | none => rfl
  | some e => rfl

/-- Two changes of what a computation gives are one. -/
private theorem map_map {β γ : Type} (g : α → β) (f : β → γ) (x : Except Fault α) :
    (x.map g).map f = x.map fun a => f (g a) := Functor.map_map g f x

/-- A dispatch that goes through either refuses the edit and leaves the engine alone, or commits
the transaction on the document that its effects find. -/
theorem dispatch_cases {now : Nat} {answer : Except Edit.Error ViewUpdate}
    (h : en.dispatch t now = .ok (next, answer)) :
    (next = en ∧ ∃ error, answer = .error error) ∨
    ∃ doc store update, en.edited t = .ok doc ∧ en.store.update t doc = .ok store ∧
      answer = .ok update ∧ next = (en.moved t doc now).committed t en.doc store := by
  rw [dispatch_eq] at h
  cases hedited : en.edited t with
  | error error =>
    rw [hedited] at h
    obtain ⟨rfl, rfl⟩ := Prod.mk.inj (Except.ok.inj h)
    exact Or.inl ⟨rfl, error, rfl⟩
  | ok doc =>
    rw [hedited] at h
    obtain ⟨⟨committed, update⟩, hcommit, heq⟩ := exists_of_map_eq_ok h
    obtain ⟨rfl, rfl⟩ := Prod.mk.inj heq
    obtain ⟨store, hstore, rfl⟩ := eq_committed_of_commit hcommit
    exact Or.inr ⟨doc, store, update, rfl, hstore, rfl, rfl⟩

/-- A reply that leaves the engine alone, or commits one effect that the store offers. -/
def Acts (en : Engine) (result : Except Fault (Reply α)) : Prop :=
  (∃ r, result = .ok r ∧ r.engine = en) ∨
    ∃ key effect, en.store.Offers effect ∧ result.map (·.engine) =
      (commitEffects { en with nextKey := key } [effect]).map (·.1)

/-- Changing the answer does not change what a reply does. -/
theorem Acts.map {β : Type} {result : Except Fault (Reply α)} (h : en.Acts result)
    (f : Reply α → Reply β) (hf : ∀ r, (f r).engine = r.engine) : en.Acts (result.map f) := by
  rcases h with ⟨r, rfl, hr⟩ | ⟨key, effect, offered, heq⟩
  · exact Or.inl ⟨f r, rfl, (hf r).trans hr⟩
  · refine Or.inr ⟨key, effect, offered, ?_⟩
    rw [← heq]
    cases result with
    | error fault => rfl
    | ok r => exact congrArg Except.ok (hf r)

/-- Committing an effect that the store offers, with any answer. -/
theorem acts_commitEffects (en : Engine) (effect : Effect) (offered : en.store.Offers effect)
    (f : Engine × ViewUpdate → Reply α) (hf : ∀ r, (f r).engine = r.1) :
    en.Acts ((en.commitEffects [effect]).map f) := by
  refine Or.inr ⟨en.nextKey, effect, offered, ?_⟩
  cases en.commitEffects [effect] with
  | error fault => rfl
  | ok r => exact congrArg Except.ok (hf r)

/-- A reply that leaves the engine alone. -/
theorem acts_of_ok {r : Reply α} (h : r.engine = en) : en.Acts (.ok r) := Or.inl ⟨r, rfl, h⟩

/-- What acts and goes through leaves the engine alone, or commits an effect that the store offers
to a store that passes the check. -/
theorem Acts.engine_cases {r : Reply α} (h : en.Acts (.ok r)) :
    r.engine = en ∨ ∃ key effect store, en.store.Offers effect ∧
      en.store.update ⟨none, [effect]⟩ en.doc = .ok store ∧
      r.engine = committed { en with nextKey := key } ⟨none, [effect]⟩ en.doc store := by
  rcases h with ⟨r', hr, hsame⟩ | ⟨key, effect, offered, heq⟩
  · obtain rfl := Except.ok.inj hr
    exact Or.inl hsame
  · obtain ⟨⟨next, update⟩, hcommit, hnext⟩ := exists_of_map_eq_ok heq.symm
    obtain ⟨store, hstore, rfl⟩ := eq_committed_of_commit hcommit
    exact Or.inr ⟨key, effect, store, offered, hstore, hnext.symm⟩

/-- What acts leaves the document and the waiting alone. -/
theorem Acts.frame {r : Reply α} (h : en.Acts (.ok r)) :
    r.engine.doc = en.doc ∧ r.engine.debounce = en.debounce := by
  rcases h.engine_cases with hsame | ⟨key, effect, store, -, -, hnext⟩
  · rw [hsame]
    exact ⟨rfl, rfl⟩
  · rw [hnext]
    exact ⟨rfl, rfl⟩

/-- Moving selects a target among the annotations, or does nothing without one. -/
theorem acts_moveTo {target : Option Selection}
    (h : ∀ selection, target = some selection → Store.Among en.store.annotations selection) :
    en.Acts (en.moveTo target) := by
  cases target with
  | none => exact acts_of_ok rfl
  | some selection =>
    exact acts_commitEffects en (.select selection) (h selection rfl) _ fun _ => rfl

/-- Opening the panel commits that, unless it is open. -/
theorem acts_openPanel (en : Engine) : en.Acts en.openPanel := by
  unfold openPanel
  split
  case isTrue => exact acts_of_ok rfl
  case isFalse => exact acts_commitEffects en (.setPanel true) trivial _ fun _ => rfl

/-- Closing the panel commits that, unless it is closed. -/
theorem acts_closePanel (en : Engine) (f : Engine × Bool → Reply α)
    (hf : ∀ r, (f r).engine = r.1) : en.Acts (en.closePanel.map f) := by
  unfold closePanel
  split
  case isTrue =>
    rw [map_map]
    exact acts_commitEffects en (.setPanel false) trivial _ fun r => hf (r.1, true)
  case isFalse => exact acts_of_ok (hf _)

/-- The target of a panel item is among the annotations. -/
theorem among_of_panelTarget {index : Nat} {selection : Selection}
    (h : en.panelTarget index = some selection) :
    Store.Among en.store.annotations selection := by
  unfold panelTarget at h
  obtain ⟨panel, -, h⟩ := Option.bind_eq_some_iff.mp h
  obtain ⟨selected, -, h⟩ := Option.bind_eq_some_iff.mp h
  obtain ⟨item, -, h⟩ := Option.bind_eq_some_iff.mp h
  exact Store.among_of_firstFrom h

/-- Selecting a panel item moves to where its report is. -/
theorem acts_panelSelect (en : Engine) (index : Nat) : en.Acts (en.panelSelect index) :=
  acts_moveTo fun _ h => among_of_panelTarget h

/-- Going forward moves to an annotation. -/
theorem acts_selectNext (en : Engine) (cursor : Extent) : en.Acts (en.selectNext cursor) :=
  acts_moveTo fun _ h => Store.among_of_following h

/-- Going backward moves to an annotation. -/
theorem acts_selectPrevious (en : Engine) (cursor : Extent) :
    en.Acts (en.selectPrevious cursor) := acts_moveTo fun _ h => Store.among_of_preceding h

/-- A command leaves the engine alone or commits one effect. -/
theorem acts_execute (en : Engine) (cursor : Extent) (command : Command) :
    en.Acts (en.execute cursor command) := by
  cases command with
  | openPanel => exact (acts_openPanel en).map _ fun _ => rfl
  | closePanel => exact acts_closePanel en _ fun _ => rfl
  | nextReport => exact acts_selectNext en cursor
  | previousReport => exact acts_selectPrevious en cursor

/-- What a panel key asks for leaves the engine alone or commits one effect. -/
theorem acts_panelRequest (en : Engine) (request : Panel.Request) :
    en.Acts (en.panelRequest request) := by
  cases request with
  | close => exact acts_closePanel en _ fun _ => rfl
  | select index => exact (acts_panelSelect en index).map _ fun _ => rfl
  | focusDocument => exact acts_of_ok rfl
  | invoke item action =>
    simp only [panelRequest]
    split <;> exact acts_of_ok rfl
  | consume => exact acts_of_ok rfl

/-- A panel key leaves the engine alone or commits one effect. -/
theorem acts_panelKey (en : Engine) (key : Panel.Key) : en.Acts (en.panelKey key) := by
  unfold panelKey
  split
  case h_1 => exact acts_of_ok rfl
  case h_2 request _ => exact acts_panelRequest en request

/-- The engine that takes reports in is the same up to the keys given out. -/
theorem acts_commitEffects_takeIn (en : Engine) (intake : Intake) (rule : SelectionRule)
    (f : Engine × ViewUpdate → Reply α) (hf : ∀ r, (f r).engine = r.1) :
    en.Acts (((en.takeIn intake).1.commitEffects
      [.setReports (en.takeIn intake).2 rule]).map f) := by
  refine Or.inr ⟨(en.takeIn intake).1.nextKey, .setReports (en.takeIn intake).2 rule, trivial, ?_⟩
  change _ = ((en.takeIn intake).1.commitEffects _).map _
  cases (en.takeIn intake).1.commitEffects [.setReports (en.takeIn intake).2 rule] with
  | error fault => rfl
  | ok r => exact congrArg Except.ok (hf r)

/-- The results of a run leave the engine alone or replace the reports. -/
theorem acts_complete (en : Engine) (ticket : Ticket) (batches : List Batch)
    (f : Engine × Verdict → Reply α) (hf : ∀ r, (f r).engine = r.1) :
    en.Acts ((en.complete ticket batches).map f) := by
  unfold complete
  split
  case isTrue => exact acts_of_ok (hf _)
  case isFalse =>
    split
    case isTrue => exact acts_of_ok (hf _)
    case isFalse =>
      dsimp only
      rw [map_map]
      exact acts_commitEffects_takeIn en (.ofBatches en.doc batches) .first _
        fun r => hf (r.1, .applied r.2)

/-- The gathered results of a run leave the engine alone or replace the reports. -/
theorem acts_completeGathered (en : Engine) (g : Gather Batch)
    (f : Engine × Option Verdict → Reply α) (hf : ∀ r, (f r).engine = r.1) :
    en.Acts ((en.completeGathered g).map f) := by
  unfold completeGathered
  split
  case h_1 => exact acts_of_ok (hf _)
  case h_2 batches _ =>
    rw [map_map]
    exact acts_complete en g.ticket batches _ fun r => hf (r.1, some r.2)

/-- Replacing the reports commits that. -/
theorem acts_setReports (en : Engine) (reports : List Report) (now : Nat)
    (f : Engine × Except Edit.Error ViewUpdate → Reply α) (hf : ∀ r, (f r).engine = r.1) :
    en.Acts ((en.setReports reports now).map f) := by
  change en.Acts (((((en.takeIn _).1.commitEffects [.setReports (en.takeIn _).2 .first]).map
    fun r => (r.1, Except.ok r.2))).map f)
  rw [map_map]
  exact acts_commitEffects_takeIn en _ .first _ fun r => hf (r.1, .ok r.2)

/-- What the result of an operation comes to. -/
inductive Outcome (en : Engine) (op : Operation) (result : Except Fault (Reply Answer)) : Prop where
  /-- A transaction of the host was dispatched. -/
  | dispatched (t : Transaction) (now : Nat) (carries : op.transaction? = some t)
      (is : result = (en.dispatch t now).map fun r => .quiet r.1 (.update r.2))
  /-- At most one effect was committed. -/
  | acted (bare : op.transaction? = none) (stays : op ≠ .detach) (acts : en.Acts result)
  /-- The engine was detached. -/
  | detached (left : op = .detach) (answer : Answer) (is : result = .ok (.quiet en.detach answer))
  /-- Only the waiting, the settings, the tooltip and what the pointer does in the gutter have
  changed. -/
  | waited (bare : op.transaction? = none) (stays : op ≠ .detach) (debounce : Debounce)
      (gutter : Gutter) (hover : Option Hover) (options : Options) (answer : Answer)
      (continues : en.debounce.Continues debounce) (keeps : en.gutter.Keeps gutter)
      (rests : en.isAttached = false → en.gutter.Rests → gutter.Rests)
      (is : result = .ok (.quiet { en with debounce, gutter, hover, options } answer))

/-- Every operation dispatches, acts, detaches or waits. -/
theorem outcome (en : Engine) (cursor : Extent) (op : Operation) :
    Outcome en op (en.perform cursor op) := by
  have hwaits := Debounce.Continues.refl en.debounce
  have hkeeps := Gutter.Keeps.refl en.gutter
  have hrests : en.isAttached = false → en.gutter.Rests → en.gutter.Rests := fun _ rests => rests
  cases op with
  | edit e now => exact .dispatched (.ofEdit e) now rfl rfl
  | dispatch t now => exact .dispatched t now rfl rfl
  | setReports reports now =>
    exact .acted rfl nofun (acts_setReports en reports now _ fun _ => rfl)
  | poll now =>
    exact .waited rfl nofun _ en.gutter en.hover en.options _
      (Debounce.continues_poll en.debounce now en.doc.version) hkeeps hrests rfl
  | force now =>
    exact .waited rfl nofun _ en.gutter en.hover en.options _
      (Debounce.continues_force en.debounce now en.doc.version) hkeeps hrests rfl
  | complete ticket batches =>
    exact .acted rfl nofun (acts_complete en ticket batches _ fun _ => rfl)
  | completeGathered g => exact .acted rfl nofun (acts_completeGathered en g _ fun _ => rfl)
  | setOptions options now =>
    exact .waited rfl nofun _ en.gutter en.hover options .done
      (Debounce.continues_setDelay en.debounce options.delay now) hkeeps hrests rfl
  | noteConfigChange now =>
    exact .waited rfl nofun _ en.gutter en.hover en.options .done
      (Debounce.continues_noteChange en.debounce now) hkeeps hrests rfl
  | detach => exact .detached rfl _ rfl
  | hover pos side => exact .waited rfl nofun _ en.gutter _ en.options _ hwaits hkeeps hrests rfl
  | clearHover => exact .waited rfl nofun _ en.gutter none en.options .done hwaits hkeeps hrests rfl
  | gutterOver lineStart now =>
    simp only [perform, gutterOver]
    split
    case isTrue => exact .acted rfl nofun (acts_of_ok rfl)
    case isFalse attached =>
      exact .waited rfl nofun _ _ en.hover en.options _ hwaits
        (en.gutter.keeps_pointerOver lineStart now en.options.gutter)
        (fun detached _ => absurd detached (by simpa using attached)) rfl
  | gutterMove lineStart now =>
    exact .waited rfl nofun _ _ en.hover en.options .done hwaits
      (en.gutter.keeps_pointerMove lineStart now en.options.gutter)
      (fun _ rests => rests.pointerMove lineStart now en.options.gutter) rfl
  | gutterOut lineStart =>
    exact .waited rfl nofun _ _ en.hover en.options .done hwaits
      (en.gutter.keeps_pointerOut lineStart) (fun _ rests => rests.pointerOut lineStart) rfl
  | gutterPoll now =>
    exact .waited rfl nofun _ _ en.hover en.options _ hwaits
      (en.gutter.keeps_poll now en.options.gutter)
      (fun _ rests => by rw [rests.poll_eq]; exact rests) rfl
  | gutterPointer pointer marker overPopup =>
    exact .waited rfl nofun _ _ en.hover en.options _ hwaits
      (en.gutter.keeps_pointerMoved pointer marker overPopup en.options.gutter)
      (fun _ rests => by rw [rests.pointerMoved_eq]; exact rests) rfl
  | openPanel => exact .acted rfl nofun ((acts_openPanel en).map _ fun _ => rfl)
  | closePanel => exact .acted rfl nofun (acts_closePanel en _ fun _ => rfl)
  | panelKey key => exact .acted rfl nofun ((acts_panelKey en key).map _ fun _ => rfl)
  | panelClick index => exact .acted rfl nofun ((acts_panelSelect en index).map _ fun _ => rfl)
  | execute command => exact .acted rfl nofun ((acts_execute en cursor command).map _ fun _ => rfl)
  | invoke r action => exact .acted rfl nofun (acts_of_ok rfl)

/-- An operation leaves the store with its document and the panel alone, or commits a transaction to
them. -/
theorem commits_of_perform {cursor : Extent} {op : Operation} {reply : Reply Answer}
    (h : en.perform cursor op = .ok reply) :
    (reply.engine.store = en.store ∧ reply.engine.doc = en.doc ∧ reply.engine.panel = en.panel) ∨
      ∃ found t before store, found.store = en.store ∧ found.panel = en.panel ∧
        found.store.update t found.doc = .ok store ∧
        reply.engine = committed found t before store := by
  cases outcome en cursor op with
  | dispatched t now carries is =>
    rw [is] at h
    obtain ⟨⟨next, answer⟩, hdispatch, rfl⟩ := exists_of_map_eq_ok h
    rcases dispatch_cases hdispatch with ⟨rfl, -⟩ | ⟨doc, store, update, -, hstore, -, rfl⟩
    · exact Or.inl ⟨rfl, rfl, rfl⟩
    · exact Or.inr ⟨en.moved t doc now, t, en.doc, store, rfl, rfl, hstore, rfl⟩
  | acted bare stays acts =>
    rw [h] at acts
    rcases acts.engine_cases with hsame | ⟨key, effect, store, -, hstore, hnext⟩
    · rw [hsame]
      exact Or.inl ⟨rfl, rfl, rfl⟩
    · exact Or.inr ⟨{ en with nextKey := key }, _, _, store, rfl, rfl, hstore, hnext⟩
  | detached left answer is =>
    obtain rfl := Except.ok.inj (is.symm.trans h)
    exact Or.inl ⟨rfl, rfl, rfl⟩
  | waited bare stays debounce gutter hover options answer continues keeps rests is =>
    obtain rfl := Except.ok.inj (is.symm.trans h)
    exact Or.inl ⟨rfl, rfl, rfl⟩

end Engine

end Marginalia
