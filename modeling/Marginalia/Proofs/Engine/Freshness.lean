import Marginalia.Proofs.Engine.Soundness

/-!
# Results for an old text are not shown

A request hands out the version of the document along with its text. Along a run the version
grows with every edit that is taken and has a pass, and the document stays as it is otherwise, so
an equal version means an equal text. An engine that was detached stays so, and has no timer any
more that could hand out a request. What comes of the results of a request is therefore settled
by the operations since, in whatever order they came.
-/

namespace Marginalia

namespace Debounce

variable {d : Debounce} {now version : Nat} {ticket : Ticket}

/-- A timer that goes off was set, and the run reads the version at hand. -/
theorem version_of_poll (h : (d.poll now version).2 = some ticket) :
    d.timer ≠ none ∧ ticket.version = version := by
  unfold poll at h
  split at h
  case h_1 => simp at h
  case h_2 due hdue =>
    refine ⟨fun hnone => by simp [hnone] at hdue, ?_⟩
    split at h
    case isTrue => simp at h
    case isFalse =>
      split at h
      case isTrue => simp at h
      case isFalse =>
        obtain rfl := Option.some.inj h
        rfl

/-- A run that is forced was pending, and reads the version at hand. -/
theorem version_of_force (h : (d.force now version).2 = some ticket) :
    d.timer ≠ none ∧ ticket.version = version := by
  unfold force at h
  split at h
  case h_1 => simp at h
  case h_2 due hdue =>
    obtain rfl := Option.some.inj h
    exact ⟨fun hnone => by simp [hnone] at hdue, rfl⟩

end Debounce

namespace Engine

variable {en start next : Engine} {t : Transaction} {cursor : Extent} {op : Operation}
  {reply : Reply Answer} {events : List Event} {request : Request}

/-- The operation dispatched a transaction that changes the text, and it was taken. -/
def Event.Alters (ev : Event) : Prop :=
  ∃ t update, ev.operation.transaction? = some t ∧ t.changesText = true ∧
    ev.reply.answer = .update (.ok update)

/-- Only operations with a transaction alter the document. -/
theorem Event.not_alters {ev : Event} (bare : ev.operation.transaction? = none) : ¬ ev.Alters := by
  rintro ⟨t, -, carries, -⟩
  exact absurd (bare.symm.trans carries) nofun

/-- A transaction that changes the text makes the next version. -/
theorem version_of_edited {doc : Document} (changes : t.changesText = true)
    (h : en.edited t = .ok doc) : doc.version = en.doc.version + 1 := by
  obtain ⟨e, hchange⟩ := Option.isSome_iff_exists.mp changes
  have hempty := (Option.filter_eq_some_iff.mp hchange).2
  rw [edited, hchange] at h
  exact Document.version_of_apply h (by simpa using hempty)

/-- Any other transaction leaves the document alone. -/
theorem eq_of_edited {doc : Document} (keeps : ¬ t.changesText = true)
    (h : en.edited t = .ok doc) : doc = en.doc := by
  have hchange : t.change = none := Option.not_isSome_iff_eq_none.mp keeps
  rw [edited, hchange] at h
  exact (Except.ok.inj h).symm

/-- The document after an operation is the next version if that alters it, and the same one
otherwise. -/
theorem doc_of_perform (h : en.perform cursor op = .ok reply) :
    (Event.Alters ⟨en, cursor, op, reply⟩ ∧ reply.engine.doc.version = en.doc.version + 1) ∨
    (¬ Event.Alters ⟨en, cursor, op, reply⟩ ∧ reply.engine.doc = en.doc) := by
  cases outcome en cursor op with
  | dispatched t now carries is =>
    obtain ⟨⟨next, answer⟩, hdispatch, rfl⟩ := exists_of_map_eq_ok (is.symm.trans h)
    rcases dispatch_cases hdispatch with
      ⟨rfl, error, rfl⟩ | ⟨doc, store, update, hedited, -, rfl, rfl⟩
    · exact Or.inr ⟨fun ⟨_, _, _, _, heq⟩ => absurd heq nofun, rfl⟩
    · by_cases changes : t.changesText = true
      · exact Or.inl ⟨⟨t, update, carries, changes, rfl⟩, version_of_edited changes hedited⟩
      · refine Or.inr ⟨?_, eq_of_edited changes hedited⟩
        rintro ⟨t', -, carries', changes', -⟩
        obtain rfl := Option.some.inj (carries.symm.trans carries')
        exact changes changes'
  | acted bare stays acts =>
    rw [h] at acts
    exact Or.inr ⟨Event.not_alters bare, acts.frame.1⟩
  | detached left answer is =>
    obtain rfl := Except.ok.inj (h.symm.trans is)
    subst left
    exact Or.inr ⟨Event.not_alters rfl, rfl⟩
  | waited bare stays debounce gutter hover options answer continues keeps rests is =>
    obtain rfl := Except.ok.inj (h.symm.trans is)
    exact Or.inr ⟨Event.not_alters bare, rfl⟩

/-- The waiting ends when the engine is detached, and goes on with every other operation. -/
theorem debounce_of_perform (h : en.perform cursor op = .ok reply) :
    (op = .detach ∧ reply.engine.debounce = en.debounce.detach) ∨
    (op ≠ .detach ∧ en.debounce.Continues reply.engine.debounce) := by
  cases outcome en cursor op with
  | dispatched t now carries is =>
    have stays : op ≠ .detach := by
      rintro rfl
      exact absurd carries nofun
    obtain ⟨⟨next, answer⟩, hdispatch, rfl⟩ := exists_of_map_eq_ok (is.symm.trans h)
    rcases dispatch_cases hdispatch with
      ⟨rfl, -⟩ | ⟨doc, store, update, -, -, -, rfl⟩
    · exact Or.inr ⟨stays, .refl _⟩
    · refine Or.inr ⟨stays, ?_⟩
      change en.debounce.Continues
        (if t.changesText then en.debounce.noteChange now else en.debounce)
      split
      case isTrue => exact Debounce.continues_noteChange en.debounce now
      case isFalse => exact .refl _
  | acted bare stays acts =>
    rw [h] at acts
    refine Or.inr ⟨stays, ?_⟩
    rw [acts.frame.2]
    exact .refl _
  | detached left answer is =>
    obtain rfl := Except.ok.inj (h.symm.trans is)
    exact Or.inl ⟨left, rfl⟩
  | waited bare stays debounce gutter hover options answer continues keeps rests is =>
    obtain rfl := Except.ok.inj (h.symm.trans is)
    exact Or.inr ⟨stays, continues⟩

/-- Along a run the document stays the same until an operation alters it, and has a greater
version from then on. -/
theorem Run.doc (ran : Run start events en) :
    (en.doc = start.doc ∧ ∀ ev ∈ events, ¬ ev.Alters) ∨
    (start.doc.version < en.doc.version ∧ ∃ ev ∈ events, ev.Alters) := by
  induction ran with
  | nil => exact Or.inl ⟨rfl, fun _ h => absurd h List.not_mem_nil⟩
  | @step events en cursor op reply earlier performed ih =>
    rcases doc_of_perform performed with ⟨alters, hversion⟩ | ⟨keeps, hdoc⟩
    · refine Or.inr ⟨?_, _, List.mem_append_right _ List.mem_cons_self, alters⟩
      rcases ih with ⟨hsame, -⟩ | ⟨hlt, -⟩
      · rw [hversion, hsame]
        exact Nat.lt_succ_self _
      · omega
    · rw [hdoc]
      rcases ih with ⟨hsame, hkept⟩ | ⟨hlt, ev, hev, alters⟩
      · exact Or.inl ⟨hsame,
          List.forall_mem_append.mpr ⟨hkept, List.forall_mem_singleton.mpr keeps⟩⟩
      · exact Or.inr ⟨hlt, ev, List.mem_append_left _ hev, alters⟩

/-- An engine is attached as long as it was at first and is not detached. -/
theorem Run.isAttached_iff (ran : Run start events en) :
    en.isAttached = true ↔
      start.isAttached = true ∧ ∀ ev ∈ events, ev.operation ≠ .detach := by
  induction ran with
  | nil => exact (and_iff_left fun _ h => absurd h List.not_mem_nil).symm
  | @step events en cursor op reply earlier performed ih =>
    rw [List.forall_mem_append, List.forall_mem_singleton, ← and_assoc, ← ih]
    rcases debounce_of_perform performed with ⟨left, hdebounce⟩ | ⟨stays, continues⟩
    · rw [isAttached, hdebounce]
      exact ⟨fun h => absurd h Bool.false_ne_true, fun h => absurd left h.2⟩
    · rw [isAttached, continues.attached]
      exact (and_iff_left stays).symm

/-- As the waiting goes on, no timer is set in an engine that was detached. -/
theorem timer_eq_none_of_continues (continues : en.debounce.Continues next.debounce)
    (idle : en.isAttached = false → en.debounce.timer = none)
    (hdetached : next.isAttached = false) : next.debounce.timer = none := by
  rw [isAttached, continues.attached] at hdetached
  exact continues.idle hdetached (idle hdetached)

/-- An operation sets no timer in an engine that was detached. -/
theorem timer_eq_none_of_perform (h : en.perform cursor op = .ok reply)
    (idle : en.isAttached = false → en.debounce.timer = none)
    (hdetached : reply.engine.isAttached = false) : reply.engine.debounce.timer = none := by
  rcases debounce_of_perform h with ⟨-, hdebounce⟩ | ⟨-, continues⟩
  · rw [hdebounce]
    rfl
  · exact timer_eq_none_of_continues continues idle hdetached

/-- An engine that was detached has no timer, if this was so at first. -/
theorem Run.timer_eq_none (ran : Run start events en)
    (idle : start.isAttached = false → start.debounce.timer = none) :
    en.isAttached = false → en.debounce.timer = none := by
  induction ran with
  | nil => exact idle
  | step earlier performed ih => exact timer_eq_none_of_perform performed ih

/-- Only polling and forcing hand out a request. It is for the document at hand, and a timer was
set. -/
theorem request_of_perform (h : en.perform cursor op = .ok reply)
    (handed : reply.answer = .request (some request)) :
    en.debounce.timer ≠ none ∧ request.ticket.version = en.doc.version ∧
      request.text = en.doc.text ∧ op.transaction? = none ∧ op ≠ .detach := by
  cases op with
  | poll now =>
    obtain rfl := Except.ok.inj h
    obtain ⟨ticket, hticket, rfl⟩ := Option.map_eq_some_iff.mp (Answer.request.inj handed)
    obtain ⟨htimer, hversion⟩ := Debounce.version_of_poll hticket
    exact ⟨htimer, hversion, rfl, rfl, nofun⟩
  | force now =>
    obtain rfl := Except.ok.inj h
    obtain ⟨ticket, hticket, rfl⟩ := Option.map_eq_some_iff.mp (Answer.request.inj handed)
    obtain ⟨htimer, hversion⟩ := Debounce.version_of_force hticket
    exact ⟨htimer, hversion, rfl, rfl, nofun⟩
  | edit | dispatch | setReports | complete | completeGathered | openPanel | closePanel
  | panelKey | panelClick | execute =>
    obtain ⟨result, -, rfl⟩ := exists_of_map_eq_ok h
    exact absurd handed nofun
  | setOptions | noteConfigChange | detach | hover | clearHover | gutterOver | gutterMove
  | gutterOut | gutterPoll | gutterPointer | invoke =>
    obtain rfl := Except.ok.inj h
    exact absurd handed nofun

/-- A detached engine takes no results and stays as it is. -/
theorem complete_of_detached (ticket : Ticket) (batches : List Batch)
    (h : en.isAttached = false) : en.complete ticket batches = .ok (en, .detached) := by
  rw [complete, h]
  rfl

/-- An engine at another version takes no results and stays as it is. -/
theorem complete_of_stale {ticket : Ticket} (batches : List Batch) (h : en.isAttached = true)
    (hversion : ticket.version ≠ en.doc.version) :
    en.complete ticket batches = .ok (en, .stale ticket en.doc.version) := by
  rw [complete, h, if_pos hversion]
  rfl

/-- An attached engine at the version of the ticket takes the results, whatever they are, and
keeps its document. -/
theorem exists_complete_applied {ticket : Ticket} (batches : List Batch)
    (h : en.isAttached = true) (hversion : ticket.version = en.doc.version) :
    ∃ next update, en.complete ticket batches = .ok (next, .applied update) ∧
      next.doc = en.doc := by
  let taken := en.takeIn (.ofBatches en.doc batches)
  have hsound := Store.sound_setReports en.store en.doc taken.2 .first
  obtain ⟨⟨next, update⟩, hcommit, -⟩ :=
    exists_commit_of_sound (t := ⟨none, [.setReports taken.2 .first]⟩) taken.1 en.doc hsound
  refine ⟨next, update, ?_, ?_⟩
  · have hcurrent : ¬ ticket.version ≠ en.doc.version := fun hne => hne hversion
    rw [complete, h, if_neg hcurrent]
    exact congrArg (Except.map _) hcommit
  · obtain ⟨store, -, rfl⟩ := eq_committed_of_commit hcommit
    rfl

/-- Results are shown only by an attached engine at the version of their ticket. -/
theorem of_complete_applied {ticket : Ticket} {batches : List Batch} {update : ViewUpdate}
    (h : en.complete ticket batches = .ok (next, .applied update)) :
    en.isAttached = true ∧ ticket.version = en.doc.version := by
  cases hattached : en.isAttached with
  | false =>
    rw [complete_of_detached ticket batches hattached] at h
    exact absurd (Prod.mk.inj (Except.ok.inj h)).2 nofun
  | true =>
    refine ⟨rfl, Decidable.not_not.mp fun hversion => ?_⟩
    rw [complete_of_stale batches hattached hversion] at h
    exact absurd (Prod.mk.inj (Except.ok.inj h)).2 nofun

/-- A run from the start that hands out a request leaves an attached engine with the document of
the request. -/
theorem Run.hands_out {doc : Document} {options : Options} {now : Nat}
    (ran : Run (attach doc options now) events start)
    (asked : start.perform cursor op = .ok reply)
    (handed : reply.answer = .request (some request)) :
    reply.engine.isAttached = true ∧ request.ticket.version = reply.engine.doc.version ∧
      request.text = reply.engine.doc.text := by
  obtain ⟨htimer, hversion, htext, bare, stays⟩ := request_of_perform asked handed
  have hattached : start.isAttached = true := by
    cases hstart : start.isAttached with
    | true => rfl
    | false => exact absurd (ran.timer_eq_none nofun hstart) htimer
  have hdoc : reply.engine.doc = start.doc := by
    rcases doc_of_perform asked with ⟨alters, -⟩ | ⟨-, hsame⟩
    · exact absurd alters (Event.not_alters bare)
    · exact hsame
  rw [hdoc]
  refine ⟨?_, hversion, htext⟩
  rcases debounce_of_perform asked with ⟨left, -⟩ | ⟨-, continues⟩
  · exact absurd left stays
  · rw [isAttached, continues.attached]
    exact hattached

/-- What becomes of the results of a request, however many operations come in between. They are
shown only if none of these altered the document, and then they are for its text. If one did,
they are stale, and if the engine was detached, nothing is done with them; both leave everything
as it was. Otherwise they are shown. -/
theorem complete_of_request {doc : Document} {options : Options} {now : Nat}
    {earlier : List Event} (ran : Run (attach doc options now) earlier start)
    (asked : start.perform cursor op = .ok reply)
    (handed : reply.answer = .request (some request))
    (later : Run reply.engine events en) (batches : List Batch) :
    (∀ next update, en.complete request.ticket batches = .ok (next, .applied update) →
      (∀ ev ∈ events, ¬ ev.Alters) ∧ en.doc.text = request.text ∧ next.doc = en.doc) ∧
    ((∃ ev ∈ events, ev.Alters) → (∀ ev ∈ events, ev.operation ≠ .detach) →
      en.complete request.ticket batches =
        .ok (en, .stale request.ticket en.doc.version)) ∧
    ((∃ ev ∈ events, ev.operation = .detach) →
      en.complete request.ticket batches = .ok (en, .detached)) ∧
    ((∀ ev ∈ events, ¬ ev.Alters) → (∀ ev ∈ events, ev.operation ≠ .detach) →
      ∃ next update, en.complete request.ticket batches = .ok (next, .applied update)) := by
  obtain ⟨hattached, hversion, htext⟩ := ran.hands_out asked handed
  have hstays := later.isAttached_iff
  rw [hattached, and_iff_right rfl] at hstays
  have hcurrent (kept : ∀ ev ∈ events, ¬ ev.Alters) : en.doc = reply.engine.doc := by
    rcases later.doc with ⟨hsame, -⟩ | ⟨-, ev, hev, alters⟩
    · exact hsame
    · exact absurd alters (kept ev hev)
  have hstale (altered : ∃ ev ∈ events, ev.Alters) :
      request.ticket.version ≠ en.doc.version := by
    obtain ⟨ev, hev, alters⟩ := altered
    rcases later.doc with ⟨-, kept⟩ | ⟨hlt, -⟩
    · exact absurd alters (kept ev hev)
    · rw [hversion]
      exact Nat.ne_of_lt hlt
  refine ⟨?_, ?_, ?_, ?_⟩
  · intro next update happlied
    obtain ⟨hon, hticket⟩ := of_complete_applied happlied
    have kept : ∀ ev ∈ events, ¬ ev.Alters := fun ev hev alters =>
      hstale ⟨ev, hev, alters⟩ hticket
    obtain ⟨next', update', happlied', hdoc⟩ := exists_complete_applied batches hon hticket
    obtain ⟨rfl, -⟩ := Prod.mk.inj (Except.ok.inj (happlied.symm.trans happlied'))
    refine ⟨kept, ?_, hdoc⟩
    rw [hcurrent kept, htext]
  · intro altered stays
    exact complete_of_stale batches (hstays.mpr stays) (hstale altered)
  · rintro ⟨ev, hev, left⟩
    refine complete_of_detached _ batches (Bool.eq_false_iff.mpr fun hon => ?_)
    exact hstays.mp hon ev hev left
  · intro kept stays
    have hticket : request.ticket.version = en.doc.version := by rw [hversion, hcurrent kept]
    obtain ⟨next, update, happlied, -⟩ :=
      exists_complete_applied batches (hstays.mpr stays) hticket
    exact ⟨next, update, happlied⟩

/-- Results that come in after an edit, for a request from before it. -/
theorem complete_of_request_before_edit :
    let doc : Document := .ofText "main" ['a', 'b']
    let e : Edit := ⟨2, 3, [⟨2, [⟨⟨1, 1⟩, ['x']⟩]⟩]⟩
    let request : Request := ⟨⟨1, 0⟩, "main", ['a', 'b']⟩
    ∃ forced made, (attach doc .standard 0).perform ⟨0, 0⟩ (.force 1) = .ok forced ∧
      forced.answer = .request (some request) ∧
      forced.engine.perform ⟨0, 0⟩ (.edit e 2) = .ok made ∧
      made.engine.complete request.ticket [] = .ok (made.engine, .stale request.ticket 1) := by
  intro doc e request
  obtain ⟨forced, made, asked, handed, edited, hversion, update, hanswer⟩ :
      ∃ forced made, (attach doc .standard 0).perform ⟨0, 0⟩ (.force 1) = .ok forced ∧
        forced.answer = .request (some request) ∧
        forced.engine.perform ⟨0, 0⟩ (.edit e 2) = .ok made ∧ made.engine.doc.version = 1 ∧
        ∃ update, made.answer = .update (.ok update) := ⟨_, _, rfl, rfl, rfl, rfl, _, rfl⟩
  obtain ⟨-, stale, -⟩ := complete_of_request .nil asked handed (.step .nil edited) []
  rw [hversion] at stale
  refine ⟨forced, made, asked, handed, edited, stale ?_ ?_⟩
  · exact ⟨_, List.mem_cons_self, .ofEdit e, update, rfl, rfl, hanswer⟩
  · exact List.forall_mem_singleton.mpr nofun

end Engine

end Marginalia
