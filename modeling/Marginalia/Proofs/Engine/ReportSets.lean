import Marginalia.Proofs.Engine.Replacement
import Marginalia.Proofs.Store.Distinct

/-!
# The sets of reports that a run applies

A host puts sets of reports into the store by effects of its transactions, by setting the reports,
and by handing in the results of a run. Commands and keys only move the selection and the panel. So
a store that is empty at first holds each report once, as long as each set that is applied has each
report once.
-/

namespace Marginalia

/-- The set of reports that an effect puts into the store, if it does. -/
def Effect.set? : Effect → Option (List Report)
  | .setReports reports _ => some reports
  | .setPanel _ | .select _ => none

namespace Engine

variable {α : Type} {start en next : Engine} {events : List Event} {effect : Effect}

/-- The set of reports that the results of a run put into the store, unless they are late or for
another version. -/
def appliedBy (en : Engine) (ticket : Ticket) (batches : List Batch) : List (List Report) :=
  if en.isAttached = true ∧ ticket.version = en.doc.version then [en.taken batches] else []

/-- The sets of reports that an operation puts into the store, as they are taken in. -/
def applied (en : Engine) : Operation → List (List Report)
  | .dispatch t _ =>
    match en.edited t with
    | .error _ => []
    | .ok _ => t.effects.filterMap Effect.set?
  | .setReports reports _ => [(en.takeIn (reports.foldl (Intake.push en.doc) .empty)).2]
  | .complete ticket batches => en.appliedBy ticket batches
  | .completeGathered g =>
    match g.results? with
    | none => []
    | some batches => en.appliedBy g.ticket batches
  | _ => []

section Steering

/-- A reply that leaves the annotations alone, if there is one. -/
def Steers (en : Engine) (result : Except Fault (Reply α)) : Prop :=
  ∀ reply, result = .ok reply → reply.engine.store.annotations = en.store.annotations

/-- A reply that leaves the engine alone. -/
theorem steers_of_ok {r : Reply α} (h : r.engine = en) : en.Steers (.ok r) := by
  intro reply hreply
  rw [← Except.ok.inj hreply, h]

/-- Changing the answer does not change what becomes of the annotations. -/
theorem Steers.map {β : Type} {result : Except Fault (Reply α)} (h : en.Steers result)
    (f : Reply α → Reply β) (hf : ∀ r, (f r).engine = r.engine) : en.Steers (result.map f) := by
  intro reply hreply
  obtain ⟨r, hr, rfl⟩ := exists_of_map_eq_ok hreply
  rw [hf]
  exact h r hr

/-- Committing an effect that sets no reports leaves the annotations alone. -/
theorem annotations_of_commitEffects {update : ViewUpdate}
    (mild : (⟨none, [effect]⟩ : Transaction).setsReports = false)
    (h : en.commitEffects [effect] = .ok (next, update)) :
    next.store.annotations = en.store.annotations := by
  obtain ⟨store, hstore, rfl⟩ := eq_committed_of_commit h
  exact Store.annotations_of_update hstore mild

/-- A reply to committing an effect that sets no reports. -/
theorem steers_commitEffects (en : Engine)
    (mild : (⟨none, [effect]⟩ : Transaction).setsReports = false)
    (f : Engine × ViewUpdate → Reply α) (hf : ∀ r, (f r).engine = r.1) :
    en.Steers ((en.commitEffects [effect]).map f) := by
  intro reply hreply
  obtain ⟨⟨next, update⟩, hcommit, rfl⟩ := exists_of_map_eq_ok hreply
  rw [hf]
  exact annotations_of_commitEffects mild hcommit

/-- Moving to a report leaves the annotations alone. -/
theorem steers_moveTo (en : Engine) (target : Option Selection) :
    en.Steers (en.moveTo target) := by
  cases target with
  | none => exact steers_of_ok rfl
  | some selection => exact steers_commitEffects en rfl _ fun _ => rfl

/-- Opening the panel leaves the annotations alone. -/
theorem steers_openPanel (en : Engine) : en.Steers en.openPanel := by
  unfold openPanel
  split
  case isTrue => exact steers_of_ok rfl
  case isFalse => exact steers_commitEffects en rfl _ fun _ => rfl

/-- Closing the panel leaves the annotations alone. -/
theorem steers_closePanel (en : Engine) (f : Engine × Bool → Reply α)
    (hf : ∀ r, (f r).engine = r.1) : en.Steers (en.closePanel.map f) := by
  intro reply hreply
  obtain ⟨⟨next, closed⟩, hclosed, rfl⟩ := exists_of_map_eq_ok hreply
  rw [hf]
  unfold closePanel at hclosed
  split at hclosed
  case isTrue =>
    obtain ⟨⟨committed, update⟩, hcommit, heq⟩ := exists_of_map_eq_ok hclosed
    obtain ⟨rfl, -⟩ := Prod.mk.inj heq
    exact annotations_of_commitEffects rfl hcommit
  case isFalse => rw [← (Prod.mk.inj (Except.ok.inj hclosed)).1]

/-- A command leaves the annotations alone. -/
theorem steers_execute (en : Engine) (cursor : Extent) (command : Command) :
    en.Steers (en.execute cursor command) := by
  cases command with
  | openPanel => exact (steers_openPanel en).map _ fun _ => rfl
  | closePanel => exact steers_closePanel en _ fun _ => rfl
  | nextReport => exact steers_moveTo en _
  | previousReport => exact steers_moveTo en _

/-- A key in the panel leaves the annotations alone. -/
theorem steers_panelKey (en : Engine) (key : Panel.Key) : en.Steers (en.panelKey key) := by
  unfold panelKey
  split
  case h_1 => exact steers_of_ok rfl
  case h_2 request _ =>
    cases request with
    | close => exact steers_closePanel en _ fun _ => rfl
    | select index => exact (steers_moveTo en _).map _ fun _ => rfl
    | focusDocument => exact steers_of_ok rfl
    | invoke item action =>
      simp only [panelRequest]
      split <;> exact steers_of_ok rfl
    | consume => exact steers_of_ok rfl

end Steering

/-- A commit of a set of different reports leaves different reports. -/
theorem nodup_reports_of_commitEffects {reports : List Report} {update : ViewUpdate}
    (distinct : reports.Nodup)
    (h : en.commitEffects [.setReports reports .first] = .ok (next, update)) :
    next.store.reports.Nodup := by
  rw [Store.reports, (replaces_of_commitEffects h).annotations]
  exact Annotation.nodup_place distinct en.doc

/-- Results that come in leave no report twice if none is and what is taken has none twice. -/
theorem nodup_reports_of_complete {ticket : Ticket} {batches : List Batch} {verdict : Verdict}
    (distinct : en.store.reports.Nodup)
    (sets : ∀ reports ∈ en.appliedBy ticket batches, reports.Nodup)
    (h : en.complete ticket batches = .ok (next, verdict)) : next.store.reports.Nodup := by
  unfold complete at h
  split at h
  case isTrue =>
    obtain ⟨rfl, -⟩ := Prod.mk.inj (Except.ok.inj h)
    exact distinct
  case isFalse attached =>
    split at h
    case isTrue =>
      obtain ⟨rfl, -⟩ := Prod.mk.inj (Except.ok.inj h)
      exact distinct
    case isFalse current =>
      obtain ⟨⟨committed, update⟩, hcommit, heq⟩ := exists_of_map_eq_ok h
      obtain ⟨rfl, -⟩ := Prod.mk.inj heq
      have hattached : en.isAttached = true := by simpa using attached
      rw [appliedBy, if_pos ⟨hattached, Decidable.not_not.mp current⟩] at sets
      exact nodup_reports_of_commitEffects (List.forall_mem_singleton.mp sets) hcommit

/-- Gathered results leave no report twice if none is and what is taken has none twice. -/
theorem nodup_reports_of_completeGathered {g : Gather Batch} {verdict : Option Verdict}
    (distinct : en.store.reports.Nodup)
    (sets : ∀ reports ∈ en.applied (.completeGathered g), reports.Nodup)
    (h : en.completeGathered g = .ok (next, verdict)) : next.store.reports.Nodup := by
  unfold completeGathered at h
  split at h
  case h_1 =>
    obtain ⟨rfl, -⟩ := Prod.mk.inj (Except.ok.inj h)
    exact distinct
  case h_2 batches hbatches =>
    obtain ⟨⟨committed, verdict⟩, hcomplete, heq⟩ := exists_of_map_eq_ok h
    obtain ⟨rfl, -⟩ := Prod.mk.inj heq
    rw [applied, hbatches] at sets
    exact nodup_reports_of_complete distinct sets hcomplete

/-- A dispatch leaves no report twice if none is and its sets have none twice. -/
theorem nodup_reports_of_dispatch {t : Transaction} {now : Nat}
    {answer : Except Edit.Error ViewUpdate} (distinct : en.store.reports.Nodup)
    (sets : ∀ reports ∈ en.applied (.dispatch t now), reports.Nodup)
    (h : en.dispatch t now = .ok (next, answer)) : next.store.reports.Nodup := by
  rcases dispatch_cases h with ⟨rfl, -⟩ | ⟨doc, store, update, made, hstore, -, rfl⟩
  · exact distinct
  · rw [applied, made] at sets
    refine Store.nodup_update distinct (fun reports rule given => ?_) hstore
    exact sets reports (List.mem_filterMap.mpr ⟨.setReports reports rule, given, rfl⟩)

/-- An operation leaves no report twice if none is and the sets that it applies have none twice. -/
theorem nodup_reports_of_perform {cursor : Extent} {op : Operation} {reply : Reply Answer}
    (distinct : en.store.reports.Nodup) (sets : ∀ reports ∈ en.applied op, reports.Nodup)
    (h : en.perform cursor op = .ok reply) : reply.engine.store.reports.Nodup := by
  have steered {result : Except Fault (Reply Answer)} (steers : en.Steers result)
      (is : result = .ok reply) : reply.engine.store.reports.Nodup := by
    rw [Store.reports, steers reply is]
    exact distinct
  cases op with
  | edit e now =>
    obtain ⟨⟨next, answer⟩, hdispatch, rfl⟩ := exists_of_map_eq_ok h
    refine nodup_reports_of_dispatch distinct (fun reports hmem => ?_) hdispatch
    rw [applied] at hmem
    split at hmem <;> exact absurd hmem List.not_mem_nil
  | dispatch t now =>
    obtain ⟨⟨next, answer⟩, hdispatch, rfl⟩ := exists_of_map_eq_ok h
    exact nodup_reports_of_dispatch distinct sets hdispatch
  | setReports reports now =>
    obtain ⟨⟨next, answer⟩, hset, rfl⟩ := exists_of_map_eq_ok h
    obtain ⟨⟨committed, update⟩, hcommit, heq⟩ := exists_of_map_eq_ok hset
    obtain ⟨rfl, -⟩ := Prod.mk.inj heq
    exact nodup_reports_of_commitEffects (List.forall_mem_singleton.mp sets) hcommit
  | complete ticket batches =>
    obtain ⟨⟨next, verdict⟩, hcomplete, rfl⟩ := exists_of_map_eq_ok h
    exact nodup_reports_of_complete distinct sets hcomplete
  | completeGathered g =>
    obtain ⟨⟨next, verdict⟩, hgathered, rfl⟩ := exists_of_map_eq_ok h
    exact nodup_reports_of_completeGathered distinct sets hgathered
  | openPanel => exact steered ((steers_openPanel en).map _ fun _ => rfl) h
  | closePanel => exact steered (steers_closePanel en _ fun _ => rfl) h
  | panelKey key => exact steered ((steers_panelKey en key).map _ fun _ => rfl) h
  | panelClick index => exact steered ((steers_moveTo en _).map _ fun _ => rfl) h
  | execute command => exact steered ((steers_execute en cursor command).map _ fun _ => rfl) h
  | gutterOver lineStart now =>
    obtain rfl := Except.ok.inj h
    simp only [gutterOver]
    split <;> exact distinct
  | poll | force | setOptions | noteConfigChange | detach | hover | clearHover | gutterMove
  | gutterOut | gutterPoll | gutterPointer | invoke =>
    obtain rfl := Except.ok.inj h
    exact distinct

/-- Throughout a run the store holds each report once, if it did at first and each set that is
applied has each report once. -/
theorem Run.nodup_reports (ran : Run start events en) (distinct : start.store.reports.Nodup)
    (sets : ∀ ev ∈ events, ∀ reports ∈ ev.before.applied ev.operation, reports.Nodup) :
    en.store.reports.Nodup := by
  induction ran with
  | nil => exact distinct
  | step earlier performed ih =>
    obtain ⟨hearlier, hlast⟩ := List.forall_mem_append.mp sets
    exact nodup_reports_of_perform (ih hearlier) (List.forall_mem_singleton.mp hlast) performed

end Engine

end Marginalia
