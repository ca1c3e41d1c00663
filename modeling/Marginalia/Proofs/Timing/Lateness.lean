import Marginalia.Proofs.Since
import Marginalia.Proofs.Timing.History

/-!
# Timers that are late

A timer that is set stays where it is until it goes off. So it waits for the end of the quiet period
that was the latest when it was set, and once there is a later one it goes off early, as long as
time does not go back. Only a shorter quiet period makes it late. It then stays late until a quiet
period begins that reaches up to it, it goes off, or a run is forced.
-/

namespace Marginalia.Debounce

/-- The time at which a call is made, if it tells. -/
def Call.time? : Call → Option Nat
  | .noteChange now | .setDelay _ now | .poll now _ | .force now _ => some now
  | .detach => none

/-- The calls are made from `begun` on, none at an earlier time than one before it. -/
def Paced (begun : Nat) (calls : List Call) : Prop :=
  (begun :: calls.filterMap Call.time?).Pairwise (· ≤ ·)

instance (begun : Nat) (calls : List Call) : Decidable (Paced begun calls) :=
  inferInstanceAs (Decidable (List.Pairwise _ _))

/-- The timer goes off later than the next run may start. -/
def IsLate (d : Debounce) : Prop := ∃ deadline ∈ d.timer, d.nextRun < deadline

/-- The call sets a quiet period that is over before the timer goes off. -/
def Outruns (d : Debounce) : Call → Prop
  | .setDelay delay now => ∃ deadline ∈ d.timer, now + delay < deadline
  | .noteChange _ | .poll _ _ | .force _ _ | .detach => False

/-- The call begins a quiet period that is not over before the timer goes off, finds the timer due,
or takes it away. -/
def Meets (d : Debounce) : Call → Prop
  | .noteChange now => ∀ deadline ∈ d.timer, deadline ≤ now + d.delay
  | .setDelay delay now => ∀ deadline ∈ d.timer, deadline ≤ now + delay
  | .poll now _ => ∀ deadline ∈ d.timer, deadline ≤ now
  | .force _ _ | .detach => True

variable {d : Debounce} {c : Call} {calls : List Call} {last : Change} {deadline : Nat}

/-- The latest change is the beginning or one that was called. -/
theorem time_latest_mem (first : Change) (calls : List Call) :
    (first.latest calls).time ∈ first.time :: calls.filterMap Call.time? := by
  induction calls generalizing first with
  | nil => exact List.mem_cons_self
  | cons c rest ih =>
    have hrest := ih (first.next c)
    cases c with
    | noteChange now | setDelay delay now => exact List.mem_cons_of_mem _ hrest
    | poll now version | force now version =>
      rcases List.mem_cons.mp hrest with hfirst | hlater
      · exact List.mem_cons.mpr (Or.inl hfirst)
      · exact List.mem_cons_of_mem _ (List.mem_cons_of_mem _ hlater)
    | detach => exact hrest

/-- In calls that are paced the latest change is not behind the next call. -/
theorem Paced.time_latest_le {begun delay : Nat} (paced : Paced begun calls) {earlier : List Call}
    (h : earlier ++ [c] <+: calls) {now : Nat} (hnow : c.time? = some now) :
    (Change.latest ⟨begun, delay⟩ earlier).time ≤ now := by
  obtain ⟨later, rfl⟩ := h
  unfold Paced at paced
  rw [List.append_assoc, List.filterMap_append, ← List.cons_append] at paced
  refine (List.pairwise_append.mp paced).2.2 _ (time_latest_mem ⟨begun, delay⟩ earlier) now ?_
  simp [hnow]

/-- A timer that is set while there was none is not late. -/
theorem not_isLate_call_of_unset (unset : d.timer = none) (c : Call) : ¬ (d.call c).1.IsLate := by
  have hnote (d : Debounce) (unset : d.timer = none) (now : Nat) : ¬ (d.noteChange now).IsLate := by
    unfold noteChange
    split <;> simp [IsLate, unset]
  cases c with
  | noteChange now => exact hnote d unset now
  | setDelay delay now => exact hnote { d with delay } unset now
  | poll now version => simp [call, poll, unset, IsLate]
  | force now version => simp [call, force, unset, IsLate]
  | detach => simp [call, detach, IsLate]

/-- After a call the timer is late exactly if the call outruns it, or it was late and the call does
not meet it. -/
theorem isLate_call_iff (tracks : d.Tracks last)
    (behind : ∀ now, c.time? = some now → last.time ≤ now) :
    (d.call c).1.IsLate ↔ d.Outruns c ∨ d.IsLate ∧ ¬ d.Meets c := by
  cases htimer : d.timer with
  | none =>
    refine iff_of_false (not_isLate_call_of_unset htimer c) ?_
    cases c <;> simp [Outruns, IsLate, htimer]
  | some deadline =>
    have hpending : d.isPending = true := by rw [isPending, htimer]; rfl
    have hattached : d.attached = true := by
      by_contra hdetached
      have hidle := tracks.idle (by simpa using hdetached)
      exact Bool.false_ne_true (hidle.symm.trans hpending)
    have hdue := tracks.due hpending
    have hdelay := tracks.delay
    cases c with
    | noteChange now =>
      -- the quiet period that begins now is not over before the one under way
      have hbehind := behind now rfl
      simp [call, noteChange, hattached, IsLate, Outruns, Meets, htimer, hdue, hdelay, Change.due]
      omega
    | setDelay delay now =>
      simp [call, setDelay, noteChange, hattached, IsLate, Outruns, Meets, htimer]
    | poll now version =>
      rcases Nat.lt_or_ge now deadline with hahead | hpassed
      · simp [call, poll, IsLate, Outruns, Meets, htimer, hahead]
      · have hlater : ¬ now < deadline := Nat.not_lt.mpr hpassed
        simp only [call, poll, htimer, if_neg hlater]
        split <;> simp [start, IsLate, Outruns, Meets, htimer, hpassed]
    | force now version => simp [call, force, htimer, start, IsLate, Outruns, Meets]
    | detach => simp [call, detach, IsLate, Outruns, Meets]

/-- In calls that are paced a timer is late exactly if it was outrun and not met since. -/
theorem isLate_after_iff {begun delay : Nat} (paced : Paced begun calls) :
    ((attach delay begun).after calls).IsLate ↔
      Since (fun d c => (call d c).1) Outruns Meets (attach delay begun) calls := by
  refine iff_since_of_steps (by simp [IsLate, attach]) fun earlier c h => ?_
  exact isLate_call_iff ((tracks_attach delay begun).after earlier) fun _ => paced.time_latest_le h

/-- A timer that a call leaves was there before, with no run since, or is set for the next run. -/
theorem of_timer_call (set : (d.call c).1.timer = some deadline) :
    d.timer = some deadline ∧ (d.call c).2 = none ∨ deadline = (d.call c).1.nextRun := by
  have hnote (d : Debounce) (now : Nat) (set : (d.noteChange now).timer = some deadline) :
      d.timer = some deadline ∨ deadline = (d.noteChange now).nextRun := by
    unfold noteChange at set ⊢
    split at set
    case isTrue hattached =>
      rw [if_pos hattached]
      exact (Option.or_eq_some_iff.mp set).imp_right fun h => (Option.some.inj h.2).symm
    case isFalse => exact Or.inl set
  cases c with
  | noteChange now => exact (hnote d now set).imp_left fun h => ⟨h, rfl⟩
  | setDelay delay now => exact (hnote { d with delay } now set).imp_left fun h => ⟨h, rfl⟩
  | poll now version =>
    simp only [call] at set ⊢
    rcases poll_cases d now version with heq | ⟨-, heq⟩ | ⟨-, -, heq⟩
    · rw [heq] at set ⊢
      exact Or.inl ⟨set, rfl⟩
    · rw [heq] at set ⊢
      exact Or.inr (Option.some.inj set).symm
    · rw [heq] at set
      contradiction
  | force now version =>
    simp only [call] at set ⊢
    rcases force_cases d now version with ⟨-, heq⟩ | ⟨-, heq⟩
    · rw [heq] at set ⊢
      exact Or.inl ⟨set, rfl⟩
    · rw [heq] at set
      contradiction
  | detach => contradiction

/-- A timer is set for the end of the quiet period that was the latest at some time since the latest
run. -/
theorem exists_due_eq_of_timer {begun delay : Nat}
    (set : ((attach delay begun).after calls).timer = some deadline) :
    ∃ earlier later, calls = earlier ++ later ∧
      ((attach delay begun).after earlier).tickets later = [] ∧
      deadline = (Change.latest ⟨begun, delay⟩ earlier).due := by
  induction calls using List.reverseRecOn with
  | nil => exact ⟨[], [], rfl, rfl, (Option.some.inj set).symm⟩
  | append_singleton calls c ih =>
    have hpending : ((attach delay begun).after (calls ++ [c])).isPending = true := by
      rw [isPending, set]
      rfl
    have tracks := (tracks_attach delay begun).after (calls ++ [c])
    rw [after_append] at set
    rcases of_timer_call set with ⟨hset, hnone⟩ | hnext
    · obtain ⟨earlier, later, rfl, hquiet, hdue⟩ := ih hset
      refine ⟨earlier, later ++ [c], List.append_assoc _ _ _, ?_, hdue⟩
      rw [tickets_append, hquiet, ← after_append, tickets_singleton, hnone]
      rfl
    · refine ⟨calls ++ [c], [], (List.append_nil _).symm, rfl, ?_⟩
      rw [← tracks.due hpending, after_append]
      exact hnext

/-- As long as time does not go back, a pending run starts with the first poll past the quiet period
after the latest change, and the timer is set for no later time than that, exactly unless a shorter
quiet period has outrun the timer and nothing has met it since. Then too a poll past both times
starts the run, and the timer is set for the end of a quiet period that was the latest one at some
time since the latest run. -/
theorem starts_once_quiet_iff (delay begun : Nat) {calls : List Call} {deadline : Nat}
    (paced : Paced begun calls)
    (set : ((attach delay begun).after calls).timer = some deadline) :
    let d := (attach delay begun).after calls
    let due := (Change.latest ⟨begun, delay⟩ calls).due
    let outrun := Since (fun d c => (call d c).1) Outruns Meets (attach delay begun) calls
    ((∀ t version, due ≤ t → ∃ ticket, (d.poll t version).2 = some ticket) ↔ ¬ outrun) ∧
      (deadline ≤ d.nextRun ↔ ¬ outrun) ∧
      (∀ t version, due ≤ t → deadline ≤ t → ∃ ticket, (d.poll t version).2 = some ticket) ∧
      ∃ earlier later, calls = earlier ++ later ∧
        ((attach delay begun).after earlier).tickets later = [] ∧
        deadline = (Change.latest ⟨begun, delay⟩ earlier).due := by
  intro d due outrun
  have hdue : d.nextRun = due :=
    ((tracks_attach delay begun).after calls).due (by rw [isPending, set]; rfl)
  have hlate : deadline ≤ d.nextRun ↔ ¬ outrun := by
    have hiff : d.IsLate ↔ outrun := isLate_after_iff paced
    rw [← hiff, IsLate, set]
    simp
  have hstarts (t version : Nat) (hquiet : due ≤ t) (hpassed : deadline ≤ t) :
      ∃ ticket, (d.poll t version).2 = some ticket :=
    exists_ticket_of_poll set hpassed (hdue ▸ hquiet) version
  refine ⟨?_, hlate, hstarts, exists_due_eq_of_timer set⟩
  rw [← hlate, hdue]
  constructor
  · intro hprompt
    refine Nat.le_of_not_lt fun hahead => ?_
    -- at the end of the quiet period the timer has not gone off yet
    obtain ⟨ticket, hticket⟩ := hprompt due 0 (Nat.le_refl _)
    simp [d, poll, set, hahead] at hticket
  · exact fun hreached t version hquiet => hstarts t version hquiet (Nat.le_trans hreached hquiet)

/-- The timer is outrun by a shorter quiet period, and met by a change when it is about to go off.
Past the quiet period after that change a poll starts the run. -/
theorem starts_once_quiet_iff_after_change :
    let calls : List Call := [.setDelay 100 10, .noteChange 700]
    Paced 0 calls ∧ ((attach 750 0).after calls).timer = some 750 ∧
      ((attach 750 0).after calls).nextRun = 800 ∧
      ∀ t version, 800 ≤ t →
        ∃ ticket, (((attach 750 0).after calls).poll t version).2 = some ticket := by
  intro calls
  have paced : Paced 0 calls := by decide
  have set : ((attach 750 0).after calls).timer = some 750 := rfl
  obtain ⟨hprompt, hreached, -⟩ := starts_once_quiet_iff 750 0 paced set
  exact ⟨paced, set, rfl, hprompt.mpr (hreached.mp (by decide))⟩

/-- A shorter quiet period leaves the timer where it is: a poll after it does not start the pending
run yet. -/
theorem shorter_delay_leaves_timer :
    let calls : List Call := [.setDelay 100 10]
    Paced 0 calls ∧ .detach ∉ calls ∧ (Change.latest ⟨0, 750⟩ calls).due = 110 ∧
      ((attach 750 0).after calls).isPending = true ∧
      (((attach 750 0).after calls).poll 110 0).2 = none ∧
      ((attach 750 0).after calls).nextRun = 110 ∧
      ((attach 750 0).after calls).timer = some 750 := by
  decide

end Marginalia.Debounce
