import Marginalia.Proofs.Engine.Deadline
import Marginalia.Proofs.Session.Run

/-!
# Deadlines of sessions

A session names the earliest time at which its engine has anything to do, for an evaluation or for
a pop-up of the gutter, but its tick sees to the evaluation alone. The evaluation timer always lies
ahead after a tick. A time at a marker that has come stays there, unless the tick carries out a run,
which makes all markers anew. Until the host polls the gutter itself, ticking again changes nothing.
-/

namespace Marginalia

namespace Session

variable {State Value : Type} {backend : Backend State Value} {s : Session}

/-- The times at the markers lie ahead exactly when they did before or a run was carried out. -/
theorem Proceeds.lt_due_iff {state : State} {debounce : Debounce} {ticket? : Option Ticket}
    {next : Session} {verdict : Option Engine.Verdict} {trace : Trace State Value} {now : Nat}
    (proceeds : Proceeds backend state s debounce ticket? next verdict trace) :
    (∀ m ∈ next.engine.gutter.markers, ∀ due, m.due = some due → now < due) ↔
      verdict.isSome = true ∨
        ∀ m ∈ s.engine.gutter.markers, ∀ due, m.due = some due → now < due := by
  cases proceeds with
  | waits => simp
  | runs ticket update keeps rests exact =>
    refine iff_of_true (fun m hm due hdue => ?_) (Or.inl rfl)
    rw [rests.idle m hm] at hdue
    contradiction

/-- In every state that a session gets into, the deadline that is left by a tick lies ahead exactly
when the tick carries out a run or no time at a marker has come. Otherwise the deadline that has
passed stays: another tick at the same time does nothing at all. -/
theorem deadline_after_tick_iff (reached : s.Reachable) (backend : Backend State Value)
    (state : State) (now : Nat) :
    ∃ next verdict trace, s.tick backend state now = .ok (next, verdict, trace) ∧
      ((∀ deadline, next.nextDeadline = some deadline → now < deadline) ↔
        verdict.isSome = true ∨
          ∀ m ∈ s.engine.gutter.markers, ∀ due, m.due = some due → now < due) ∧
      ∀ later, next.tick backend later now = .ok (next, none, ⟨later, []⟩) := by
  obtain ⟨next, verdict, trace, htick, proceeds⟩ :=
    exists_tick reached.timer_eq_none backend state now
  have hdebounce := proceeds.debounce_eq
  have htimer : ∀ due, next.engine.debounce.timer = some due → now < due := by
    intro due hdue
    rw [hdebounce] at hdue
    exact Debounce.lt_timer_of_poll hdue
  refine ⟨next, verdict, trace, htick, ?_, fun later => ?_⟩
  · change (∀ deadline, next.engine.nextDeadline = some deadline → _) ↔ _
    rw [Engine.lt_nextDeadline_iff, and_iff_right htimer]
    exact proceeds.lt_due_iff
  · have hpoll : next.engine.debounce.poll now next.engine.doc.version =
        (next.engine.debounce, none) := by
      rw [hdebounce]
      exact Debounce.poll_poll _ now _ _
    unfold tick Engine.poll
    rw [hpoll]
    rfl

/-- A backend whose first evaluation fails at the first character. -/
def failingOnce : Backend Backend.Tally Unit :=
  .replay [.error [⟨⟨"main", 0, 1⟩, "bad", [], []⟩]] () []

/-- The evaluation has failed, and a pointer has come to the marker that it left. -/
private theorem exists_pointed :
    ∃ ticked pointed : Reply Backend.Tally Unit,
      (start (.ofText "main" ['a', 'b']) .standard 0).perform failingOnce (.zero 0) ⟨0, 0⟩
        (.tick 750) = .ok ticked ∧
      ticked.session.perform failingOnce ticked.trace.state ⟨0, 0⟩
        (.engine (.gutterOver 0 1000)) = .ok pointed ∧
      pointed.session.nextDeadline = some 1300 ∧
      pointed.session.engine.gutter.markers.map (·.due) = [some 1300] ∧
      ∀ now, pointed.session.tick failingOnce ⟨1, []⟩ now =
        .ok (pointed.session, none, ⟨⟨1, []⟩, []⟩) :=
  ⟨_, _, rfl, rfl, rfl, rfl, fun _ => rfl⟩

/-- Before the time of the marker has come, a tick leaves a deadline that lies ahead. -/
theorem deadline_after_tick_iff_before_popup :
    ∃ s next trace, Reachable s ∧ s.nextDeadline = some 1300 ∧
      s.tick failingOnce ⟨1, []⟩ 1299 = .ok (next, none, trace) ∧
      ∀ deadline, next.nextDeadline = some deadline → 1299 < deadline := by
  obtain ⟨ticked, pointed, hticked, hpointed, hdeadline, hdues, hidle⟩ := exists_pointed
  have reached := ((Reachable.start _ _ _).step hticked).step hpointed
  have hahead :
      ∀ m ∈ pointed.session.engine.gutter.markers, ∀ due, m.due = some due → 1299 < due := by
    intro m hm due hdue
    have hmem : m.due ∈ pointed.session.engine.gutter.markers.map (·.due) :=
      List.mem_map_of_mem hm
    rw [hdues, List.mem_singleton, hdue] at hmem
    obtain rfl := Option.some.inj hmem
    decide
  obtain ⟨next, verdict, trace, htick, hiff, -⟩ :=
    deadline_after_tick_iff reached failingOnce ⟨1, []⟩ 1299
  obtain rfl : verdict = none := by
    have hboth := (hidle 1299).symm.trans htick
    exact (Prod.mk.inj (Prod.mk.inj (Except.ok.inj hboth)).2).1.symm
  exact ⟨_, next, trace, reached, hdeadline, htick, hiff.mpr (Or.inr hahead)⟩

/-- Once the time has come, a tick leaves the session and the deadline as they are. -/
theorem deadline_stays_after_tick :
    ∃ s trace, Reachable s ∧ s.nextDeadline = some 1300 ∧
      s.tick failingOnce ⟨1, []⟩ 1300 = .ok (s, none, trace) := by
  obtain ⟨ticked, pointed, hticked, hpointed, hdeadline, -, hidle⟩ := exists_pointed
  have reached := ((Reachable.start _ _ _).step hticked).step hpointed
  exact ⟨_, _, reached, hdeadline, hidle 1300⟩

end Session

end Marginalia
