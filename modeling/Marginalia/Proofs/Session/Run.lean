import Marginalia.Proofs.Engine.Replacement
import Marginalia.Session.Replay

/-!
# Runs of sessions

A session carries out the run that its engine asks for on the spot, so nothing comes between the
request and its results: in every state that a session gets into they are shown. What a run calls
and what it leaves in the store is said here without the batches and keys that it makes on the way.
-/

namespace Marginalia

namespace Debounce

/-- A poll starts a run exactly when the timer is due and not much too early. -/
theorem isSome_poll_iff (d : Debounce) (now version : Nat) :
    (d.poll now version).2.isSome = true ↔
      ∃ due, d.timer = some due ∧ due ≤ now ∧ d.nextRun ≤ now + tolerance := by
  unfold poll
  cases d.timer with
  | none => simp
  | some due =>
    dsimp only
    split
    case isTrue hlater =>
      simp
      omega
    case isFalse hdue =>
      split
      case isTrue hearly =>
        simp
        omega
      case isFalse hready => simp [Nat.not_lt.mp hdue, Nat.not_lt.mp hready]

/-- A run is forced exactly when one is pending. -/
theorem isSome_force (d : Debounce) (now version : Nat) :
    (d.force now version).2.isSome = d.isPending := by
  unfold force isPending
  cases d.timer with
  | none => rfl
  | some due => rfl

end Debounce

namespace Session

variable {State Value : Type} {backend : Backend State Value} {s : Session}

/-- A state that a session gets into, whatever the host does with it and whatever its backend
answers. The host has hold of the engine and may also put another one in its place. -/
inductive Reachable : Session → Prop
  | start (doc : Document) (config : Config) (now : Nat) : Reachable (.start doc config now)
  | step {s : Session} (earlier : Reachable s) {State Value : Type}
      {backend : Backend State Value} {state : State} {cursor : Extent} {op : Operation}
      {reply : Reply State Value} (performed : s.perform backend state cursor op = .ok reply) :
      Reachable reply.session
  | replace {s : Session} (earlier : Reachable s) {doc : Document} {options : Engine.Options}
      {now : Nat} {events : List Engine.Event} {en : Engine}
      (ran : Engine.Run (.attach doc options now) events en) : Reachable { s with engine := en }

/-- The failures of an evaluation; a value is none. -/
def failuresOf : Except (List Failure) Value → List Failure
  | .ok _ => []
  | .error failures => failures

/-- The value of an evaluation, if there is one. -/
def valuesOf : Except (List Failure) Value → List Value
  | .ok v => [v]
  | .error _ => []

/-- What the sources answer about a document when they are asked in order, and the state that they
leave. -/
def answers (doc : Document) (state : State) :
    List (State → Document → State × List Draft) → List (List Draft) × State
  | [] => ([], state)
  | ask :: rest =>
    let (later, final) := answers doc (ask state doc).1 rest
    ((ask state doc).2 :: later, final)

/-- What a run offers to report: the failures that can be placed, and then the answers of the
sources. -/
def offered (doc : Document) (result : Except (List Failure) Value)
    (answered : List (List Draft)) : List Draft :=
  Failure.drafts doc (failuresOf result) ++ answered.flatten

/-- How much of a run is rejected: the failures that cannot be placed and what does not fit. -/
def rejected (doc : Document) (result : Except (List Failure) Value)
    (answered : List (List Draft)) : Nat :=
  Failure.malformed doc (failuresOf result) +
    (offered doc result answered).countP (!Intake.fits doc ·.span)

/-- What a run reports: what it offers and is not rejected, and the substitute for the rest. -/
def reported (doc : Document) (result : Except (List Failure) Value)
    (answered : List (List Draft)) : List Draft :=
  (offered doc result answered).filter (Intake.fits doc ·.span) ++
    if rejected doc result answered = 0 then [] else [Intake.substitute doc]

/-- The evaluation of the document in the format of a session. -/
def evaluation (backend : Backend State Value) (state : State) (s : Session) :
    State × Except (List Failure) Value :=
  backend.evaluate state s.engine.doc.text s.engine.doc.source s.format

/-- What the sources of a backend answer about the document after it has been evaluated. -/
def answered (backend : Backend State Value) (state : State) (s : Session) :
    List (List Draft) × State :=
  answers s.engine.doc (s.evaluation backend state).1 backend.sources

/-- The calls of a run: the document is evaluated, a value handed on, and each source asked. -/
def calls (backend : Backend State Value) (state : State) (s : Session) : List (Call Value) :=
  .evaluate s.engine.doc.text s.engine.doc.source s.format ::
    (valuesOf (s.evaluation backend state).2).map .value ++
      (List.range backend.sources.length).map (.source · s.engine.doc.version)

/-- A run on the document and in the format of `s` has left `next`: the calls that it made, and the
reports that the store has instead of the former ones. -/
structure Exact (backend : Backend State Value) (state : State) (s next : Session)
    (trace : Trace State Value) : Prop where
  doc : next.engine.doc = s.engine.doc
  format : next.format = s.format
  calls : trace.calls = s.calls backend state
  leaves : trace.state = (s.answered backend state).2
  store : ∃ placed : List Annotation,
    placed.map (·.report.toDraft) =
      reported s.engine.doc (s.evaluation backend state).2 (s.answered backend state).1 ∧
    (∀ a ∈ placed, Annotation.ofReport? s.engine.doc a.report = some a) ∧
    IsSortedBy Annotation.extent placed next.engine.store.annotations

/-- An evaluation makes one call, hands a value on, and makes a batch of failures. -/
theorem exists_evaluate (backend : Backend State Value) (state : State) (s : Session)
    (ticket : Ticket) :
    ∃ en batch,
      s.evaluate backend state (s.engine.request ticket) =
        ({ s with engine := en }, batch,
          ⟨(s.evaluation backend state).1,
            .evaluate s.engine.doc.text s.engine.doc.source s.format ::
              (valuesOf (s.evaluation backend state).2).map .value⟩) ∧
      (en.doc = s.engine.doc ∧ en.debounce = s.engine.debounce) ∧
      batch.reports.map (·.toDraft) =
        Failure.drafts s.engine.doc (failuresOf (s.evaluation backend state).2) ∧
      batch.malformed =
        Failure.malformed s.engine.doc (failuresOf (s.evaluation backend state).2) := by
  unfold evaluate evaluation
  dsimp only [Engine.request]
  obtain ⟨final, result⟩ :=
    backend.evaluate state s.engine.doc.text s.engine.doc.source s.format
  cases result with
  | ok v => exact ⟨s.engine, .empty, rfl, ⟨rfl, rfl⟩, rfl, rfl⟩
  | error failures => exact ⟨_, _, rfl, ⟨rfl, rfl⟩, Report.map_toDraft_mint _ _, rfl⟩

variable (Value) in
/-- Each source is asked once, in order, and its answers make a batch. -/
theorem exists_askSources (state : State) (en : Engine) (index : Nat)
    (sources : List (State → Document → State × List Draft)) :
    ∃ next batches,
      (askSources state en index sources : Engine × List Batch × Trace State Value) =
        (next, batches,
          ⟨(answers en.doc state sources).2,
            (List.range' index sources.length).map (.source · en.doc.version)⟩) ∧
      (next.doc = en.doc ∧ next.debounce = en.debounce) ∧
      (batches.flatMap (·.reports)).map (·.toDraft) = (answers en.doc state sources).1.flatten ∧
      Batch.dropped batches = 0 := by
  induction sources generalizing state en index with
  | nil => exact ⟨en, [], rfl, ⟨rfl, rfl⟩, rfl, rfl⟩
  | cons ask rest ih =>
    obtain ⟨next, batches, hasked, hkept, hdrafts, hmalformed⟩ :=
      ih (ask state en.doc).1 (mintBatch en (ask state en.doc).2 0).1 (index + 1)
    refine ⟨next, (mintBatch en (ask state en.doc).2 0).2 :: batches, ?_, hkept, ?_, ?_⟩
    · rw [askSources]
      dsimp only
      rw [hasked]
      rfl
    · rw [List.flatMap_cons, List.map_append, hdrafts]
      exact congrArg (· ++ _) (Report.map_toDraft_mint _ _)
    · rw [Batch.dropped, hmalformed]
      rfl

/-- A run completes, in an engine that has only given out keys, batches from which it takes what is
to be reported. -/
theorem exists_run_eq (backend : Backend State Value) (state : State) (s : Session)
    (ticket : Ticket) :
    ∃ (en : Engine) (batches : List Batch),
      s.run backend state (s.engine.request ticket) =
        (en.complete ticket batches).map (fun (engine, verdict) =>
          ({ s with engine }, verdict, ⟨(s.answered backend state).2, s.calls backend state⟩)) ∧
      (en.doc = s.engine.doc ∧ en.debounce = s.engine.debounce) ∧
      (en.taken batches).map (·.toDraft) =
        reported s.engine.doc (s.evaluation backend state).2 (s.answered backend state).1 := by
  obtain ⟨evaluated, batch, hevaluated, ⟨hdoc, hdebounce⟩, hfailures, hunplaced⟩ :=
    exists_evaluate backend state s ticket
  obtain ⟨asked, batches, hasked, ⟨hdoc', hdebounce'⟩, hdrafts, hmalformed⟩ :=
    exists_askSources Value (s.evaluation backend state).1 evaluated 0 backend.sources
  rw [hdoc] at hasked hdrafts hdoc'
  have hoffered : ((batch :: batches).flatMap (·.reports)).map (·.toDraft) =
      offered s.engine.doc (s.evaluation backend state).2 (s.answered backend state).1 := by
    rw [List.flatMap_cons, List.map_append, hfailures, hdrafts]
    rfl
  refine ⟨asked, batch :: batches, ?_, ⟨hdoc', hdebounce'.trans hdebounce⟩, ?_⟩
  · unfold run
    rw [hevaluated]
    dsimp only
    rw [hasked, calls, List.range_eq_range']
    rfl
  · rw [Engine.map_toDraft_taken hoffered, Batch.dropped, hmalformed, hunplaced,
      hdoc']
    rfl

/-- A run of an attached engine for its version is shown, exactly as it came out. The timer stays
as it is, and no time is left running at a marker. -/
theorem exists_run (backend : Backend State Value) (state : State) {ticket : Ticket}
    (attached : s.engine.isAttached = true) (current : ticket.version = s.engine.doc.version) :
    ∃ next update trace,
      s.run backend state (s.engine.request ticket) = .ok (next, .applied update, trace) ∧
      next.engine.debounce = s.engine.debounce ∧ next.engine.gutter.Rests ∧
      s.Exact backend state next trace := by
  obtain ⟨en, batches, hrun, ⟨hdoc, hdebounce⟩, hreported⟩ := exists_run_eq backend state s ticket
  have hattached : en.isAttached = true := by rw [Engine.isAttached, hdebounce]; exact attached
  have hcurrent : ticket.version = en.doc.version := by rw [hdoc, current]
  obtain ⟨next, update, happlied, replaces⟩ :=
    Engine.exists_complete_replaces batches hattached hcurrent
  obtain ⟨placed, hplaced, hat, hsorted⟩ :=
    Annotation.exists_place fun _ (h : _ ∈ en.taken batches) => Engine.fits_of_mem_taken h
  refine ⟨{ s with engine := next }, update, ⟨(s.answered backend state).2, s.calls backend state⟩,
    ?_, replaces.debounce.trans hdebounce, replaces.rests, replaces.doc.trans hdoc, rfl, rfl, rfl,
    placed, ?_, ?_, ?_⟩
  · rw [hrun, happlied]
    rfl
  · rw [← hreported, ← hplaced, List.map_map]
    rfl
  · rw [← hdoc]
    exact hat
  · rw [replaces.annotations]
    exact hsorted

/-- What comes of a request: nothing without one, and otherwise a run whose results are shown. -/
inductive Proceeds (backend : Backend State Value) (state : State) (s : Session)
    (debounce : Debounce) : Option Ticket → Session → Option Engine.Verdict → Trace State Value →
      Prop
  | waits : Proceeds backend state s debounce none
      { s with engine := { s.engine with debounce } } none ⟨state, []⟩
  | runs (ticket : Ticket) (update : Engine.ViewUpdate) {next : Session}
      {trace : Trace State Value} (keeps : next.engine.debounce = debounce)
      (rests : next.engine.gutter.Rests) (exact : s.Exact backend state next trace) :
      Proceeds backend state s debounce (some ticket) next (some (.applied update)) trace

/-- A request that the timer has led to goes through, in a session that has no timer once it is
detached. -/
theorem exists_runRequested (idle : s.engine.isAttached = false → s.engine.debounce.timer = none)
    {debounce : Debounce} {ticket? : Option Ticket}
    (continues : s.engine.debounce.Continues debounce)
    (asked : ∀ ticket, ticket? = some ticket →
      s.engine.debounce.timer ≠ none ∧ ticket.version = s.engine.doc.version)
    (backend : Backend State Value) (state : State) :
    ∃ next verdict trace,
      runRequested backend state { s with engine := { s.engine with debounce } }
        (ticket?.map s.engine.request) = .ok (next, verdict, trace) ∧
      Proceeds backend state s debounce ticket? next verdict trace := by
  cases ticket? with
  | none => exact ⟨_, _, _, rfl, .waits⟩
  | some ticket =>
    obtain ⟨htimer, current⟩ := asked ticket rfl
    let waiting : Session := { s with engine := { s.engine with debounce } }
    have attached : waiting.engine.isAttached = true :=
      continues.attached.trans (Bool.of_not_eq_false fun hdetached => htimer (idle hdetached))
    obtain ⟨next, update, trace, hrun, keeps, rests, exact⟩ :=
      exists_run (s := waiting) backend state attached current
    have hrequested : waiting.run backend state (s.engine.request ticket) = _ := hrun
    refine ⟨next, _, trace, ?_, .runs ticket update keeps rests ?_⟩
    · change Except.map _ (waiting.run backend state (s.engine.request ticket)) = _
      rw [hrequested]
      rfl
    · exact ⟨exact.doc, exact.format, exact.calls, exact.leaves, exact.store⟩

/-- A tick of a session that has no timer once it is detached goes through. -/
theorem exists_tick (idle : s.engine.isAttached = false → s.engine.debounce.timer = none)
    (backend : Backend State Value) (state : State) (now : Nat) :
    ∃ next verdict trace, s.tick backend state now = .ok (next, verdict, trace) ∧
      Proceeds backend state s (s.engine.debounce.poll now s.engine.doc.version).1
        (s.engine.debounce.poll now s.engine.doc.version).2 next verdict trace :=
  exists_runRequested idle (Debounce.continues_poll _ _ _) (fun _ => Debounce.version_of_poll)
    backend state

/-- Forcing a session that has no timer once it is detached goes through. -/
theorem exists_force (idle : s.engine.isAttached = false → s.engine.debounce.timer = none)
    (backend : Backend State Value) (state : State) (now : Nat) :
    ∃ next verdict trace, s.force backend state now = .ok (next, verdict, trace) ∧
      Proceeds backend state s (s.engine.debounce.force now s.engine.doc.version).1
        (s.engine.debounce.force now s.engine.doc.version).2 next verdict trace :=
  exists_runRequested idle (Debounce.continues_force _ _ _) (fun _ => Debounce.version_of_force)
    backend state

section Proceeds

variable {state : State} {debounce : Debounce} {ticket? : Option Ticket} {next : Session}
  {verdict : Option Engine.Verdict} {trace : Trace State Value}

/-- The waiting goes on as the request left it. -/
theorem Proceeds.debounce_eq
    (proceeds : Proceeds backend state s debounce ticket? next verdict trace) :
    next.engine.debounce = debounce := by
  cases proceeds with
  | waits => rfl
  | runs ticket update keeps rests exact => exact keeps

/-- There is a verdict if there was a request. -/
theorem Proceeds.isSome_verdict
    (proceeds : Proceeds backend state s debounce ticket? next verdict trace) :
    verdict.isSome = ticket?.isSome := by
  cases proceeds with
  | waits => rfl
  | runs ticket update keeps rests exact => rfl

/-- Without a verdict nothing was called and the store is as it was; a verdict says that the
results of one run are shown, exactly. -/
theorem Proceeds.exact_of_verdict
    (proceeds : Proceeds backend state s debounce ticket? next verdict trace) :
    (verdict = none ∧ trace = ⟨state, []⟩ ∧ next.engine.store = s.engine.store) ∨
      (∃ update, verdict = some (.applied update)) ∧ s.Exact backend state next trace := by
  cases proceeds with
  | waits => exact Or.inl ⟨rfl, rfl, rfl⟩
  | runs ticket update keeps rests exact => exact Or.inr ⟨⟨update, rfl⟩, exact⟩

end Proceeds

/-- A session has no timer once its engine is detached. -/
theorem Reachable.timer_eq_none (reached : s.Reachable) :
    s.engine.isAttached = false → s.engine.debounce.timer = none := by
  induction reached with
  | start doc config now => exact nofun
  | replace earlier ran ih => exact ran.timer_eq_none nofun
  | @step s earlier State Value backend state cursor op reply performed ih =>
    have hcontinued (next : Engine) (continues : s.engine.debounce.Continues next.debounce) :=
      Engine.timer_eq_none_of_continues continues ih
    cases op with
    | tick now =>
      obtain ⟨next, verdict, trace, htick, proceeds⟩ := exists_tick ih backend state now
      obtain ⟨result, hresult, rfl⟩ := exists_of_map_eq_ok performed
      obtain rfl := Except.ok.inj (htick.symm.trans hresult)
      refine hcontinued next.engine ?_
      rw [proceeds.debounce_eq]
      exact Debounce.continues_poll _ _ _
    | force now =>
      obtain ⟨next, verdict, trace, hforce, proceeds⟩ := exists_force ih backend state now
      obtain ⟨result, hresult, rfl⟩ := exists_of_map_eq_ok performed
      obtain rfl := Except.ok.inj (hforce.symm.trans hresult)
      refine hcontinued next.engine ?_
      rw [proceeds.debounce_eq]
      exact Debounce.continues_force _ _ _
    | edit e now =>
      obtain ⟨result, hresult, rfl⟩ := exists_of_map_eq_ok performed
      obtain ⟨edited, hedited, rfl⟩ := exists_of_map_eq_ok hresult
      have hmade : s.engine.perform cursor (.edit e now) =
          .ok (.quiet edited.1 (.update edited.2)) := by
        change Except.map _ (s.engine.edit e now) = _
        rw [hedited]
        rfl
      exact Engine.timer_eq_none_of_perform hmade ih
    | setFormat format now =>
      obtain rfl := Except.ok.inj performed
      change (s.setFormat format now).engine.isAttached = false → _
      unfold setFormat
      split
      case isTrue => exact ih
      case isFalse =>
        exact hcontinued (s.engine.noteConfigChange now) (Debounce.continues_noteChange _ now)
    | engine op =>
      obtain ⟨r, hperformed, rfl⟩ := exists_of_map_eq_ok performed
      exact Engine.timer_eq_none_of_perform hperformed ih

/-- In every state that a session gets into, with any evaluator and any sources, a tick and a forced
run go through. Either they come to nothing and call nothing, or their results are shown, which are
those of one evaluation of the current text in the current format and of one round of the sources:
a value is handed on, and the store then holds what was reported, sorted by where it is placed. A
tick carries out a run if the timer is due and not much too early, and a forced one if a run is
pending. -/
theorem runs_are_exact (reached : s.Reachable) (backend : Backend State Value) (state : State)
    (now : Nat) :
    (∃ next verdict trace, s.tick backend state now = .ok (next, verdict, trace) ∧
      ((verdict = none ∧ trace = ⟨state, []⟩ ∧ next.engine.store = s.engine.store) ∨
        (∃ update, verdict = some (.applied update)) ∧ s.Exact backend state next trace) ∧
      (verdict.isSome = true ↔ ∃ due, s.engine.debounce.timer = some due ∧ due ≤ now ∧
        s.engine.debounce.nextRun ≤ now + Debounce.tolerance)) ∧
    ∃ next verdict trace, s.force backend state now = .ok (next, verdict, trace) ∧
      ((verdict = none ∧ trace = ⟨state, []⟩ ∧ next.engine.store = s.engine.store) ∨
        (∃ update, verdict = some (.applied update)) ∧ s.Exact backend state next trace) ∧
      verdict.isSome = s.engine.debounce.isPending := by
  have idle := reached.timer_eq_none
  obtain ⟨ticked, verdict, trace, htick, proceeds⟩ := exists_tick idle backend state now
  obtain ⟨forced, verdict', trace', hforce, proceeds'⟩ := exists_force idle backend state now
  refine ⟨⟨ticked, verdict, trace, htick, proceeds.exact_of_verdict, ?_⟩,
    forced, verdict', trace', hforce, proceeds'.exact_of_verdict, ?_⟩
  · rw [proceeds.isSome_verdict]
    exact Debounce.isSome_poll_iff _ now _
  · rw [proceeds'.isSome_verdict]
    exact Debounce.isSome_force _ now _

/-- The evaluation of a text fails at two places, of which one is inverted, and a source adds a
report. -/
private theorem exists_forced :
    let failures : List Failure :=
      [⟨⟨"main", 1, 2⟩, "bad", [], []⟩, ⟨⟨"main", 2, 1⟩, "inverted", [], []⟩]
    let backend : Backend Backend.Tally Unit :=
      .replay [.error failures] () [[[.error ⟨"main", ⟨0, 1⟩⟩ "checked"]]]
    ∃ next update trace,
      (start (.ofText "main" ['a', 'b']) .standard 0).force backend (.zero 1) 1 =
        .ok (next, some (.applied update), trace) ∧
      next.engine.store.reports.map (·.message) = [Intake.malformedMessage, "checked", "bad"] :=
  ⟨_, _, _, rfl, rfl⟩

/-- The results are shown, with a substitute for the inverted one. -/
theorem runs_are_exact_with_substitute :
    let failures : List Failure :=
      [⟨⟨"main", 1, 2⟩, "bad", [], []⟩, ⟨⟨"main", 2, 1⟩, "inverted", [], []⟩]
    let backend : Backend Backend.Tally Unit :=
      .replay [.error failures] () [[[.error ⟨"main", ⟨0, 1⟩⟩ "checked"]]]
    let s := start (.ofText "main" ['a', 'b']) .standard 0
    ∃ next update trace,
      s.force backend (.zero 1) 1 = .ok (next, some (.applied update), trace) ∧
      s.Exact backend (.zero 1) next trace ∧ trace.calls.length = 2 ∧
      next.engine.store.reports.map (·.message) = [Intake.malformedMessage, "checked", "bad"] := by
  intro failures backend s
  obtain ⟨next, update, trace, hforce, hreports⟩ := exists_forced
  obtain ⟨-, _, _, _, hforced, outcome, -⟩ :=
    runs_are_exact (.start (.ofText "main" ['a', 'b']) .standard 0) backend (.zero 1) 1
  obtain ⟨rfl, rfl, rfl⟩ : _ ∧ _ ∧ _ := by simpa using hforce.symm.trans hforced
  rcases outcome with ⟨hnone, -⟩ | ⟨-, exact⟩
  · exact absurd hnone nofun
  · refine ⟨next, update, trace, hforce, exact, ?_, hreports⟩
    rw [exact.calls]
    rfl

end Session

end Marginalia
