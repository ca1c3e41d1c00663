/-!
# When to evaluate

Evaluation waits for a quiet period after the latest change. A change pushes the time of the next
run forward, but leaves a timer alone that is already set: when the timer goes off much too
early, it is set again for the right time. A timer that goes off up to `tolerance` early starts
the run. Each run has a ticket with its number and the version of the document that it reads.
Times are in milliseconds, and nothing here assumes that they ascend.
-/

namespace Marginalia

/-- Names a run and the version of the document that it reads. Runs count from 1. -/
structure Ticket where
  run : Nat
  version : Nat
  deriving DecidableEq, Repr

/-- The state of waiting for quiet. -/
structure Debounce where
  /-- The length of the quiet period. -/
  delay : Nat
  /-- When the next run may start. -/
  nextRun : Nat
  /-- When the timer goes off, if it is set. -/
  timer : Option Nat
  /-- Whether changes still lead to runs. -/
  attached : Bool
  /-- How many runs have started. -/
  runs : Nat
  deriving DecidableEq, Repr

namespace Debounce

/-- The quiet period used unless the host gives another. -/
def standardDelay : Nat := 750

/-- How much too early a timer may go off. -/
def tolerance : Nat := 10

/-- Wait for the first run from `now` on. -/
def attach (delay now : Nat) : Debounce := ⟨delay, now + delay, some (now + delay), true, 0⟩

/-- Something has changed at `now`. -/
def noteChange (d : Debounce) (now : Nat) : Debounce :=
  if d.attached then
    { d with nextRun := now + d.delay, timer := d.timer.or (some (now + d.delay)) }
  else d

/-- The quiet period has changed at `now`, which is a change like any other. -/
def setDelay (d : Debounce) (delay now : Nat) : Debounce := noteChange { d with delay } now

/-- Start a run on the given version. -/
def start (d : Debounce) (version : Nat) : Debounce × Ticket :=
  ({ d with timer := none, runs := d.runs + 1 }, ⟨d.runs + 1, version⟩)

/-- Let the timer go off if it is due. A run starts unless it is much too early. -/
def poll (d : Debounce) (now version : Nat) : Debounce × Option Ticket :=
  match d.timer with
  | none => (d, none)
  | some due =>
    if now < due then (d, none)
    else if now + tolerance < d.nextRun then ({ d with timer := some d.nextRun }, none)
    else
      let (d, ticket) := d.start version
      (d, some ticket)

/-- Start the pending run, if there is one, without waiting. -/
def force (d : Debounce) (now version : Nat) : Debounce × Option Ticket :=
  match d.timer with
  | none => (d, none)
  | some _ =>
    let (d, ticket) := start { d with nextRun := now } version
    (d, some ticket)

/-- Take the timer back and let changes lead to nothing from now on. -/
def detach (d : Debounce) : Debounce := { d with timer := none, attached := false }

/-- Whether a timer is set. -/
def isPending (d : Debounce) : Bool := d.timer.isSome

end Debounce

end Marginalia
