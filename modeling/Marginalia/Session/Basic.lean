import Marginalia.Engine.Operation
import Marginalia.Failure.Basic
import Marginalia.Session.Config

/-!
# Sessions

A session drives an evaluator by an engine. When a run is due the session has the text evaluated
in its format, hands a value on, turns failures into reports, asks the other sources for theirs,
and completes the run at once. Evaluator and sources belong to the host and may keep a state, of
any type; each operation is given that state and returns the next one, together with the calls
that it made, in order.
-/

namespace Marginalia

/-- What evaluates a text, and what else has reports on a document. `State` is what they keep
between calls. -/
structure Session.Backend (State Value : Type) where
  evaluate : State → Text → String → Format → State × Except (List Failure) Value
  sources : List (State → Document → State × List Draft)

/-- An engine and the format that its evaluator is asked for. -/
structure Session where
  engine : Engine
  format : Format

namespace Session

/-- A call that a session made. -/
inductive Call (Value : Type) where
  /-- A text of a source was evaluated in a format. -/
  | evaluate (text : Text) (source : String) (format : Format)
  /-- A value was handed on. -/
  | value (v : Value)
  /-- The source at an index was asked about a version of the document. -/
  | source (index version : Nat)

/-- What a run needs and changes besides the session: the state of the backend and the calls made
so far. -/
structure Trace (State Value : Type) where
  state : State
  calls : List (Call Value)

variable {State Value : Type}

/-- Begin with a document at `now`. -/
def start (doc : Document) (config : Config) (now : Nat) : Session :=
  ⟨.attach doc config.engineOptions now, config.format⟩

/-- Make a batch of drafts, with keys from the engine. -/
def mintBatch (en : Engine) (drafts : List Draft) (malformed : Nat) : Engine × Batch :=
  let (reports, nextKey) := Report.mint en.nextKey drafts
  ({ en with nextKey }, ⟨reports, malformed⟩)

/-- Evaluate a text. The batch holds the failures, and nothing if there is a value. -/
def evaluate (backend : Backend State Value) (state : State) (s : Session) (r : Engine.Request) :
    Session × Batch × Trace State Value :=
  let asked := Call.evaluate r.text r.source s.format
  match backend.evaluate state r.text r.source s.format with
  | (state, .ok value) => (s, .empty, ⟨state, [asked, .value value]⟩)
  | (state, .error failures) =>
    let (engine, batch) := mintBatch s.engine (Failure.drafts s.engine.doc failures)
      (Failure.malformed s.engine.doc failures)
    ({ s with engine }, batch, ⟨state, [asked]⟩)

/-- Ask the sources from the one at `index` on, in order. -/
def askSources (state : State) (en : Engine) (index : Nat) :
    List (State → Document → State × List Draft) → Engine × List Batch × Trace State Value
  | [] => (en, [], ⟨state, []⟩)
  | ask :: rest =>
    let (state, drafts) := ask state en.doc
    let (asked, batch) := mintBatch en drafts 0
    let (asked, batches, trace) := askSources state asked (index + 1) rest
    (asked, batch :: batches,
      { trace with calls := .source index en.doc.version :: trace.calls })

/-- Carry out a run: evaluate, ask the sources, complete. -/
def run (backend : Backend State Value) (state : State) (s : Session) (r : Engine.Request) :
    Except Fault (Session × Engine.Verdict × Trace State Value) :=
  let (s, batch, evaluated) := s.evaluate backend state r
  let (engine, batches, asked) : Engine × List Batch × Trace State Value :=
    askSources evaluated.state s.engine 0 backend.sources
  (engine.complete r.ticket (batch :: batches)).map fun (engine, verdict) =>
    ({ s with engine }, verdict, ⟨asked.state, evaluated.calls ++ asked.calls⟩)

/-- Carry out the run that was requested, if one was. -/
def runRequested (backend : Backend State Value) (state : State) (s : Session) :
    Option Engine.Request → Except Fault (Session × Option Engine.Verdict × Trace State Value)
  | none => .ok (s, none, ⟨state, []⟩)
  | some r => (s.run backend state r).map fun (s, verdict, trace) => (s, some verdict, trace)

/-- Evaluate if a run is due by `now`. -/
def tick (backend : Backend State Value) (state : State) (s : Session) (now : Nat) :
    Except Fault (Session × Option Engine.Verdict × Trace State Value) :=
  let (engine, request) := s.engine.poll now
  runRequested backend state { s with engine } request

/-- Evaluate at `now` if a run is pending. -/
def force (backend : Backend State Value) (state : State) (s : Session) (now : Nat) :
    Except Fault (Session × Option Engine.Verdict × Trace State Value) :=
  let (engine, request) := s.engine.force now
  runRequested backend state { s with engine } request

/-- Ask for another format from `now` on. A format that differs is a change. -/
def setFormat (s : Session) (format : Format) (now : Nat) : Session :=
  if format = s.format then s else ⟨s.engine.noteConfigChange now, format⟩

/-- Apply an edit that the host has made at `now`. -/
def edit (s : Session) (e : Edit) (now : Nat) :
    Except Fault (Session × Except Error Engine.ViewUpdate) :=
  (s.engine.edit e now).map fun (engine, result) =>
    ({ s with engine }, result.mapError .edit)

/-- The earliest time at which there is work to do. -/
def nextDeadline (s : Session) : Option Nat := s.engine.nextDeadline

/-- An operation of a host. The engine of a session can be operated directly. -/
inductive Operation where
  | tick (now : Nat)
  | force (now : Nat)
  | edit (e : Edit) (now : Nat)
  | setFormat (format : Format) (now : Nat)
  | engine (op : Engine.Operation)

/-- What an operation answers. -/
inductive Answer where
  | verdict (v : Option Engine.Verdict)
  | update (result : Except Error Engine.ViewUpdate)
  | format (f : Format)
  | engine (answer : Engine.Answer)

/-- What an operation leaves, answers, asks of the editor and did with the backend. -/
structure Reply (State Value : Type) where
  session : Session
  answer : Answer
  hostCalls : List HostCall
  trace : Trace State Value

/-- Carry out an operation. `cursor` is what the editor has selected. -/
def perform (backend : Backend State Value) (state : State) (s : Session) (cursor : Extent) :
    Operation → Except Fault (Reply State Value)
  | .tick now => (s.tick backend state now).map fun (s, v, trace) => ⟨s, .verdict v, [], trace⟩
  | .force now => (s.force backend state now).map fun (s, v, trace) => ⟨s, .verdict v, [], trace⟩
  | .edit e now => (s.edit e now).map fun (s, r) => ⟨s, .update r, [], ⟨state, []⟩⟩
  | .setFormat format now =>
    .ok ⟨s.setFormat format now, .format (s.setFormat format now).format, [], ⟨state, []⟩⟩
  | .engine op => (s.engine.perform cursor op).map fun r =>
    ⟨{ s with engine := r.engine }, .engine r.answer, r.calls, ⟨state, []⟩⟩

end Session

end Marginalia
