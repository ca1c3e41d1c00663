import Marginalia.Proofs.Engine.Freshness
import Marginalia.Proofs.Timing.History

/-!
# The waiting of an engine

What a run of an engine does to its waiting is a history of calls: an edit that is taken and a
change of the settings are changes, and polls and forced runs ask for the version at hand. The
tickets that the engine hands out are those of that history. They ascend in their numbers and do
not descend in their versions.
-/

namespace Marginalia.Engine

variable {en start next : Engine} {t : Transaction} {cursor : Extent} {op : Operation}
  {reply : Reply Answer} {events : List Event} {ticket : Ticket}

/-- Whether an event answers a transaction that was taken. -/
def Event.isTaken (ev : Event) : Bool :=
  match ev.reply.answer with
  | .update result => result.isOk
  | _ => false

/-- The change that a transaction is to the waiting: one of the text, if it is taken. -/
def noted (taken : Bool) (t : Transaction) (now : Nat) : Option Debounce.Call :=
  if taken && t.changesText then some (.noteChange now) else none

/-- What an event does to the waiting, if anything. -/
def Event.call? (ev : Event) : Option Debounce.Call :=
  match ev.operation with
  | .edit e now => noted ev.isTaken (.ofEdit e) now
  | .dispatch t now => noted ev.isTaken t now
  | .poll now => some (.poll now ev.before.doc.version)
  | .force now => some (.force now ev.before.doc.version)
  | .setOptions options now => some (.setDelay options.delay now)
  | .noteConfigChange now => some (.noteChange now)
  | .detach => some .detach
  | _ => none

/-- The ticket that an event hands out, if it does. -/
def Event.ticket? (ev : Event) : Option Ticket :=
  match ev.reply.answer with
  | .request (some request) => some request.ticket
  | _ => none

/-- What a run does to the waiting. -/
def calls (events : List Event) : List Debounce.Call := events.filterMap Event.call?

/-- The tickets that a run hands out, in order. -/
def issued (events : List Event) : List Ticket := events.filterMap Event.ticket?

/-- One event more. -/
private theorem filterMap_append_singleton {α : Type} (f : Event → Option α) (events : List Event)
    (ev : Event) : (events ++ [ev]).filterMap f = events.filterMap f ++ (f ev).toList := by
  rw [List.filterMap_append]
  cases h : f ev <;> simp [h]

/-- The calls of one event more. -/
theorem calls_append (events : List Event) (ev : Event) :
    calls (events ++ [ev]) = calls events ++ ev.call?.toList :=
  filterMap_append_singleton Event.call? events ev

/-- The tickets of one event more. -/
theorem issued_append (events : List Event) (ev : Event) :
    issued (events ++ [ev]) = issued events ++ ev.ticket?.toList :=
  filterMap_append_singleton Event.ticket? events ev

/-- A dispatch notes a change if the transaction changes the text and is taken. -/
theorem debounce_of_dispatch {now : Nat} {answer : Except Edit.Error ViewUpdate}
    (h : en.dispatch t now = .ok (next, answer)) :
    next.debounce = en.debounce.after (noted answer.isOk t now).toList := by
  unfold noted
  rcases dispatch_cases h with ⟨rfl, error, rfl⟩ | ⟨doc, store, update, -, -, rfl, rfl⟩
  · rfl
  · change (if t.changesText = true then en.debounce.noteChange now else en.debounce) = _
    cases t.changesText <;> rfl

/-- What acts does nothing to the waiting. -/
private theorem debounce_of_acts {result : Except Fault (Reply Answer)} (acts : en.Acts result)
    (h : result = .ok reply) : reply.engine.debounce = en.debounce := by
  rw [h] at acts
  exact acts.frame.2

/-- An operation does to the waiting what its event says. -/
theorem debounce_eq_after_of_perform (h : en.perform cursor op = .ok reply) :
    reply.engine.debounce =
      en.debounce.after (Event.call? ⟨en, cursor, op, reply⟩).toList := by
  cases op with
  | edit e now =>
    obtain ⟨⟨next, answer⟩, hdispatch, rfl⟩ := exists_of_map_eq_ok h
    exact debounce_of_dispatch hdispatch
  | dispatch t now =>
    obtain ⟨⟨next, answer⟩, hdispatch, rfl⟩ := exists_of_map_eq_ok h
    exact debounce_of_dispatch hdispatch
  | setReports reports now =>
    exact debounce_of_acts (acts_setReports en reports now _ fun _ => rfl) h
  | complete ticket batches =>
    exact debounce_of_acts (acts_complete en ticket batches _ fun _ => rfl) h
  | completeGathered g => exact debounce_of_acts (acts_completeGathered en g _ fun _ => rfl) h
  | openPanel => exact debounce_of_acts ((acts_openPanel en).map _ fun _ => rfl) h
  | closePanel => exact debounce_of_acts (acts_closePanel en _ fun _ => rfl) h
  | panelKey key => exact debounce_of_acts ((acts_panelKey en key).map _ fun _ => rfl) h
  | panelClick index => exact debounce_of_acts ((acts_panelSelect en index).map _ fun _ => rfl) h
  | execute command =>
    exact debounce_of_acts ((acts_execute en cursor command).map _ fun _ => rfl) h
  | gutterOver lineStart now =>
    obtain rfl := Except.ok.inj h
    simp only [gutterOver]
    split <;> rfl
  | poll | force | setOptions | noteConfigChange | detach | hover | clearHover | gutterMove
  | gutterOut | gutterPoll | gutterPointer | invoke =>
    obtain rfl := Except.ok.inj h
    rfl

/-- The tickets of an event are those of what it does to the waiting. -/
theorem ticket?_eq_tickets_of_perform (h : en.perform cursor op = .ok reply) :
    (Event.ticket? ⟨en, cursor, op, reply⟩).toList =
      en.debounce.tickets (Event.call? ⟨en, cursor, op, reply⟩).toList := by
  have hnoted (taken : Bool) (t : Transaction) (now : Nat) :
      en.debounce.tickets (noted taken t now).toList = [] := by
    unfold noted
    split <;> rfl
  cases op with
  | edit e now =>
    obtain ⟨result, -, rfl⟩ := exists_of_map_eq_ok h
    exact (hnoted _ (.ofEdit e) now).symm
  | dispatch t now =>
    obtain ⟨result, -, rfl⟩ := exists_of_map_eq_ok h
    exact (hnoted _ t now).symm
  | poll now =>
    obtain rfl := Except.ok.inj h
    simp only [Event.call?, Option.toList_some, Debounce.tickets_singleton, Debounce.call]
    cases hticket : (en.debounce.poll now en.doc.version).2 <;>
      simp [Event.ticket?, Reply.quiet, poll, hticket, request]
  | force now =>
    obtain rfl := Except.ok.inj h
    simp only [Event.call?, Option.toList_some, Debounce.tickets_singleton, Debounce.call]
    cases hticket : (en.debounce.force now en.doc.version).2 <;>
      simp [Event.ticket?, Reply.quiet, force, hticket, request]
  | setReports | complete | completeGathered | openPanel | closePanel | panelKey | panelClick
  | execute =>
    obtain ⟨result, -, rfl⟩ := exists_of_map_eq_ok h
    rfl
  | setOptions | noteConfigChange | detach | hover | clearHover | gutterOver | gutterMove
  | gutterOut | gutterPoll | gutterPointer | invoke =>
    obtain rfl := Except.ok.inj h
    rfl

/-- The waiting after a run is what the history of its calls leaves, and its tickets are those of
that history. -/
theorem Run.waits (ran : Run start events en) :
    en.debounce = start.debounce.after (calls events) ∧
      issued events = start.debounce.tickets (calls events) := by
  induction ran with
  | nil => exact ⟨rfl, rfl⟩
  | @step events en cursor op reply earlier performed ih =>
    rw [calls_append, issued_append, Debounce.after_append, Debounce.tickets_append, ← ih.1,
      ← ih.2]
    exact ⟨debounce_eq_after_of_perform performed,
      congrArg _ (ticket?_eq_tickets_of_perform performed)⟩

/-- An event counts a run for the ticket that it hands out. -/
theorem runs_of_perform (h : en.perform cursor op = .ok reply) :
    reply.engine.debounce.runs =
      en.debounce.runs + (Event.ticket? ⟨en, cursor, op, reply⟩).toList.length := by
  rw [debounce_eq_after_of_perform h, Debounce.runs_after, ticket?_eq_tickets_of_perform h]

/-- A ticket has the number of runs so far and the version at hand, and the document stays. -/
theorem of_ticket?_eq_some (h : en.perform cursor op = .ok reply)
    (handed : Event.ticket? ⟨en, cursor, op, reply⟩ = some ticket) :
    ticket.run = en.debounce.runs + 1 ∧ ticket.version = en.doc.version ∧
      reply.engine.doc = en.doc := by
  have hfirst : (en.debounce.tickets (Event.call? ⟨en, cursor, op, reply⟩).toList)[0]? =
      some ticket := by
    rw [← ticket?_eq_tickets_of_perform h, handed]
    rfl
  obtain ⟨request, hanswer, rfl⟩ :
      ∃ request, reply.answer = .request (some request) ∧ request.ticket = ticket := by
    unfold Event.ticket? at handed
    split at handed
    case h_1 request hanswer => exact ⟨request, hanswer, Option.some.inj handed⟩
    case h_2 => simp at handed
  obtain ⟨-, hversion, -, bare, -⟩ := request_of_perform h hanswer
  refine ⟨Debounce.run_of_getElem?_tickets hfirst, hversion, ?_⟩
  rcases doc_of_perform h with ⟨alters, -⟩ | ⟨-, hdoc⟩
  · exact absurd alters (Event.not_alters bare)
  · exact hdoc

/-- Versions do not descend. -/
theorem version_le_of_perform (h : en.perform cursor op = .ok reply) :
    en.doc.version ≤ reply.engine.doc.version := by
  rcases doc_of_perform h with ⟨-, hversion⟩ | ⟨-, hdoc⟩
  · exact Nat.le_of_lt (Nat.lt_of_succ_le (Nat.le_of_eq hversion.symm))
  · exact Nat.le_of_eq (congrArg Document.version hdoc.symm)

/-- A later ticket has a greater number and no smaller version. -/
def Before (earlier later : Ticket) : Prop :=
  earlier.run < later.run ∧ earlier.version ≤ later.version

/-- The tickets of a run ascend, and none of them is ahead of the engine. -/
theorem Run.issued_ascend (ran : Run start events en) :
    (issued events).Pairwise Before ∧ ∀ ticket ∈ issued events,
      ticket.run ≤ en.debounce.runs ∧ ticket.version ≤ en.doc.version := by
  induction ran with
  | nil => exact ⟨.nil, fun _ h => absurd h List.not_mem_nil⟩
  | @step events en cursor op reply earlier performed ih =>
    obtain ⟨hascend, hbound⟩ := ih
    have hruns := runs_of_perform performed
    have hversion := version_le_of_perform performed
    rw [issued_append]
    cases hticket : Event.ticket? ⟨en, cursor, op, reply⟩ with
    | none =>
      rw [hticket] at hruns
      rw [Option.toList_none, List.append_nil, hruns]
      exact ⟨hascend, fun ticket hmem =>
        ⟨(hbound ticket hmem).1, Nat.le_trans (hbound ticket hmem).2 hversion⟩⟩
    | some latest =>
      obtain ⟨hrun, hcurrent, hdoc⟩ := of_ticket?_eq_some performed hticket
      rw [hticket] at hruns
      rw [Option.toList_some, hruns, hdoc]
      have hbefore (ticket : Ticket) (hmem : ticket ∈ issued events) : Before ticket latest := by
        refine ⟨?_, ?_⟩
        · rw [hrun]
          exact Nat.lt_succ_of_le (hbound ticket hmem).1
        · rw [hcurrent]
          exact (hbound ticket hmem).2
      refine ⟨List.pairwise_append.mpr ⟨hascend, List.pairwise_singleton _ _, ?_⟩,
        List.forall_mem_append.mpr ⟨?_, List.forall_mem_singleton.mpr ?_⟩⟩
      · intro ticket hmem other hother
        rw [List.mem_singleton.mp hother]
        exact hbefore ticket hmem
      · intro ticket hmem
        exact ⟨Nat.le_succ_of_le (hbound ticket hmem).1, (hbound ticket hmem).2⟩
      · exact ⟨Nat.le_of_eq hrun, Nat.le_of_eq hcurrent⟩

/-- An edit that is taken is a change to the waiting. -/
theorem Event.call?_of_alters {ev : Event} (alters : ev.Alters) :
    ∃ now, ev.call? = some (.noteChange now) := by
  obtain ⟨t, update, carries, changes, hanswer⟩ := alters
  have hnoted (now : Nat) : noted ev.isTaken t now = some (.noteChange now) := by
    rw [noted, isTaken, hanswer, changes]
    rfl
  cases hop : ev.operation with
  | edit e now =>
    rw [hop] at carries
    obtain rfl := Option.some.inj carries
    exact ⟨now, by rw [call?, hop]; exact hnoted now⟩
  | dispatch t' now =>
    rw [hop] at carries
    obtain rfl := Option.some.inj carries
    exact ⟨now, by rw [call?, hop]; exact hnoted now⟩
  | _ =>
    rw [hop] at carries
    exact absurd carries nofun

/-- A timer is set, or the latest ticket is for the current version. -/
def Covered (en : Engine) (events : List Event) : Prop :=
  en.debounce.isPending = true ∨
    ∃ latest, (issued events).getLast? = some latest ∧ latest.version = en.doc.version

/-- An operation that leaves the engine attached keeps a version covered, and covers a new one. -/
theorem covered_of_perform (covered : en.Covered events) (h : en.perform cursor op = .ok reply)
    (attached : reply.engine.isAttached = true) :
    reply.engine.Covered (events ++ [⟨en, cursor, op, reply⟩]) := by
  unfold Covered
  rw [issued_append]
  cases hticket : Event.ticket? ⟨en, cursor, op, reply⟩ with
  | some latest =>
    obtain ⟨-, hversion, hdoc⟩ := of_ticket?_eq_some h hticket
    refine Or.inr ⟨latest, List.getLast?_concat, ?_⟩
    rw [hversion, hdoc]
  | none =>
    have hafter := debounce_eq_after_of_perform h
    rw [isAttached, hafter, Debounce.attached_after, Bool.and_eq_true] at attached
    have hpending : reply.engine.debounce.isPending = (en.debounce.isPending ||
        (Event.call? ⟨en, cursor, op, reply⟩).toList.any Debounce.Call.isChange) := by
      rw [hafter]
      refine Debounce.isPending_after attached.1 (by simpa using attached.2) ?_
      rw [← ticket?_eq_tickets_of_perform h, hticket]
      rfl
    rw [Option.toList_none, List.append_nil, hpending, Bool.or_eq_true]
    rcases covered with hset | ⟨latest, hlatest, hversion⟩
    · exact Or.inl (Or.inl hset)
    · rcases doc_of_perform h with ⟨alters, -⟩ | ⟨-, hdoc⟩
      · obtain ⟨now, hcall⟩ := Event.call?_of_alters alters
        rw [hcall]
        exact Or.inl (Or.inr rfl)
      · rw [hdoc]
        exact Or.inr ⟨latest, hlatest, hversion⟩

/-- As long as an engine is attached its version is covered. -/
theorem Run.covered {doc : Document} {options : Options} {now : Nat}
    (ran : Run (attach doc options now) events en) (attached : en.isAttached = true) :
    en.Covered events := by
  induction ran with
  | nil => exact Or.inl rfl
  | @step events en cursor op reply earlier performed ih =>
    refine covered_of_perform (ih ?_) performed attached
    rcases debounce_of_perform performed with ⟨-, hdebounce⟩ | ⟨-, continues⟩
    · rw [isAttached, hdebounce] at attached
      exact absurd attached Bool.false_ne_true
    · rw [isAttached, ← continues.attached]
      exact attached

/-- A pending run, forced at any time, is for the current version and has the next number. -/
theorem exists_request_of_isPending (h : en.debounce.isPending = true) (now : Nat) :
    ∃ request, (en.force now).2 = some request ∧
      request.ticket = ⟨en.debounce.runs + 1, en.doc.version⟩ := by
  rcases Debounce.force_cases en.debounce now en.doc.version with ⟨hidle, -⟩ | ⟨-, heq⟩
  · exact absurd (hidle.symm.trans h) nofun
  · refine ⟨en.request ⟨en.debounce.runs + 1, en.doc.version⟩, ?_, rfl⟩
    rw [force, heq]
    rfl

/-- The latest ticket has a greater number than every ticket of another version. -/
theorem Run.run_lt_of_getLast? {latest : Ticket} (ran : Run start events en)
    (last : (issued events).getLast? = some latest) (handed : ticket ∈ issued events)
    (other : ticket.version ≠ latest.version) : ticket.run < latest.run := by
  obtain ⟨earlier, hissued⟩ := List.getLast?_eq_some_iff.mp last
  have hascend := ran.issued_ascend.1
  rw [hissued] at handed hascend
  rcases List.mem_append.mp handed with hmem | hmem
  · exact ((List.pairwise_append.mp hascend).2.2 ticket hmem latest List.mem_cons_self).1
  · exact absurd (congrArg Ticket.version (List.mem_singleton.mp hmem)) other

/-- No version of the document is left without a run. While an engine is attached, a timer is set
or the latest ticket is for the current version. So when results turn out to be stale, a newer run
is pending, which would be for the current version whenever it is forced, or a newer ticket for
that version has been handed out. -/
theorem current_version_has_run {doc : Document} {options : Options} {now : Nat}
    (ran : Run (attach doc options now) events en) (attached : en.isAttached = true) :
    (en.debounce.isPending = true ∨
      ∃ latest, (issued events).getLast? = some latest ∧ latest.version = en.doc.version) ∧
    ∀ ticket batches next current,
      en.complete ticket batches = .ok (next, .stale ticket current) →
      (∀ later, ∃ request, (en.force later).2 = some request ∧
        request.ticket.version = en.doc.version ∧
        (ticket ∈ issued events → ticket.run < request.ticket.run)) ∨
      ∃ newer ∈ issued events, newer.version = en.doc.version ∧
        (ticket ∈ issued events → ticket.run < newer.run) := by
  have covered := ran.covered attached
  refine ⟨covered, fun ticket batches next current hstale => ?_⟩
  have hother : ticket.version ≠ en.doc.version := by
    intro hcurrent
    obtain ⟨next', update, happlied, -⟩ := exists_complete_applied batches attached hcurrent
    exact absurd (Prod.mk.inj (Except.ok.inj (hstale.symm.trans happlied))).2 nofun
  rcases covered with hpending | ⟨latest, hlast, hversion⟩
  · refine Or.inl fun later => ?_
    obtain ⟨request, hforce, hticket⟩ := exists_request_of_isPending hpending later
    refine ⟨request, hforce, by rw [hticket], fun handed => ?_⟩
    rw [hticket]
    exact Nat.lt_succ_of_le (ran.issued_ascend.2 ticket handed).1
  · refine Or.inr ⟨latest, List.mem_of_getLast? hlast, hversion, fun handed => ?_⟩
    exact ran.run_lt_of_getLast? hlast handed (by rw [hversion]; exact hother)

/-- An edit while a run is under way, and a run forced after it. The results of the first run are
stale, and the second ticket is for the current version. -/
theorem current_version_has_run_after_edit :
    let doc : Document := .ofText "main" ['a', 'b']
    let e : Edit := ⟨2, 3, [⟨2, [⟨⟨1, 1⟩, ['x']⟩]⟩]⟩
    ∃ events en, events.map (·.operation) = [.force 1, .edit e 2, .force 3] ∧
      Run (attach doc .standard 0) events en ∧ en.isAttached = true ∧
      en.complete ⟨1, 0⟩ [] = .ok (en, .stale ⟨1, 0⟩ 1) ∧
      ∃ newer ∈ issued events, newer.version = 1 ∧ 1 < newer.run := by
  intro doc e
  obtain ⟨first, made, second, hfirst, hmade, hsecond, attached, hcurrent, hticket, hidle, hstale⟩ :
      ∃ first made second, (attach doc .standard 0).perform ⟨0, 0⟩ (.force 1) = .ok first ∧
        first.engine.perform ⟨0, 0⟩ (.edit e 2) = .ok made ∧
        made.engine.perform ⟨0, 0⟩ (.force 3) = .ok second ∧
        second.engine.isAttached = true ∧ second.engine.doc.version = 1 ∧
        first.answer = .request (some ⟨⟨1, 0⟩, "main", ['a', 'b']⟩) ∧
        (second.engine.force 4).2 = none ∧
        second.engine.complete ⟨1, 0⟩ [] = .ok (second.engine, .stale ⟨1, 0⟩ 1) :=
    ⟨_, _, _, rfl, rfl, rfl, rfl, rfl, rfl, rfl, rfl⟩
  have ran := ((Run.nil.step hfirst).step hmade).step hsecond
  refine ⟨_, _, rfl, ran, attached, hstale, ?_⟩
  rcases (current_version_has_run ran attached).2 _ _ _ _ hstale with
    hpending | ⟨newer, hmem, hversion, hnewer⟩
  · obtain ⟨request, hforce, -⟩ := hpending 4
    exact absurd (hidle.symm.trans hforce) nofun
  · refine ⟨newer, hmem, hcurrent.symm ▸ hversion, hnewer ?_⟩
    refine List.mem_filterMap.mpr ⟨_, List.mem_cons_self, ?_⟩
    rw [Event.ticket?, hticket]

end Marginalia.Engine
