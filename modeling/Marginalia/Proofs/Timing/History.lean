import Mathlib.Data.List.Basic
import Marginalia.Timing.Debounce

/-!
# Histories of waiting

A history is any sequence of changes, polls, forced runs and an end, at any times, in any order.
What a single call does to the timer, to the count of runs and to the latest change is said once
for each; the statements on histories follow by induction. Tickets are counted by a credit: a set
timer and every change are worth one ticket at most, and a ticket takes the timer away.
-/

namespace Marginalia.Debounce

/-- What can happen while waiting. -/
inductive Call where
  | noteChange (now : Nat)
  | setDelay (delay now : Nat)
  | poll (now version : Nat)
  | force (now version : Nat)
  | detach
  deriving DecidableEq, Repr

/-- Whether a call reports a change. -/
def Call.isChange : Call → Bool
  | .noteChange _ | .setDelay _ _ => true
  | .poll _ _ | .force _ _ | .detach => false

/-- What a call leaves, and the ticket of the run that it starts. -/
def call (d : Debounce) : Call → Debounce × Option Ticket
  | .noteChange now => (d.noteChange now, none)
  | .setDelay delay now => (d.setDelay delay now, none)
  | .poll now version => d.poll now version
  | .force now version => d.force now version
  | .detach => (d.detach, none)

/-- What a history leaves. -/
def after (d : Debounce) (calls : List Call) : Debounce :=
  calls.foldl (fun d c => (d.call c).1) d

/-- The tickets of the runs that a history starts, in order. -/
def tickets (d : Debounce) : List Call → List Ticket
  | [] => []
  | c :: rest => (d.call c).2.toList ++ tickets (d.call c).1 rest

/-- A change, by its time and the quiet period in force from then on. -/
structure Change where
  time : Nat
  delay : Nat
  deriving DecidableEq, Repr

namespace Change

/-- When the quiet period after a change is over. -/
def due (c : Change) : Nat := c.time + c.delay

/-- The latest change after one more call. -/
def next (last : Change) : Call → Change
  | .noteChange now => { last with time := now }
  | .setDelay delay now => ⟨now, delay⟩
  | .poll _ _ | .force _ _ | .detach => last

/-- The latest change after a history. -/
def latest (first : Change) (calls : List Call) : Change := calls.foldl next first

end Change

variable {d : Debounce} {c : Call} {ticket : Ticket} {calls rest : List Call}

/-- One call and then the rest. -/
@[simp] theorem after_cons (d : Debounce) (c : Call) (rest : List Call) :
    d.after (c :: rest) = (d.call c).1.after rest := rfl

/-- A history goes on where the one before it ends. -/
@[simp] theorem after_append (d : Debounce) (calls rest : List Call) :
    d.after (calls ++ rest) = (d.after calls).after rest := List.foldl_append

/-- The tickets of a history that goes on. -/
@[simp] theorem tickets_append (d : Debounce) (calls rest : List Call) :
    d.tickets (calls ++ rest) = d.tickets calls ++ (d.after calls).tickets rest := by
  induction calls generalizing d with
  | nil => rfl
  | cons c calls ih => simp [tickets, ih]

/-- A single call has the ticket that it hands out. -/
@[simp] theorem tickets_singleton (d : Debounce) (c : Call) : d.tickets [c] = (d.call c).2.toList :=
  List.append_nil _

/-- A change sets a timer while changes lead to runs. -/
@[simp] theorem isPending_noteChange (d : Debounce) (now : Nat) :
    (d.noteChange now).isPending = (d.isPending || d.attached) := by
  unfold noteChange isPending
  split
  case isTrue h => simp [h]
  case isFalse h => simp [h]

/-- A change starts no run. -/
@[simp] theorem runs_noteChange (d : Debounce) (now : Nat) : (d.noteChange now).runs = d.runs := by
  unfold noteChange
  split <;> rfl

/-- A change leaves open whether changes lead to runs. -/
@[simp] theorem attached_noteChange (d : Debounce) (now : Nat) :
    (d.noteChange now).attached = d.attached := by
  unfold noteChange
  split <;> rfl

/-- A poll finds nothing due, or sets the timer again, or starts a run. -/
theorem poll_cases (d : Debounce) (now version : Nat) :
    d.poll now version = (d, none) ∨
    d.isPending = true ∧ d.poll now version = ({ d with timer := some d.nextRun }, none) ∨
    d.isPending = true ∧ d.nextRun ≤ now + tolerance ∧
      d.poll now version =
        ({ d with timer := none, runs := d.runs + 1 }, some ⟨d.runs + 1, version⟩) := by
  unfold poll isPending
  cases d.timer with
  | none => exact Or.inl rfl
  | some due =>
    dsimp only
    split
    case isTrue => exact Or.inl rfl
    case isFalse =>
      split
      case isTrue => exact Or.inr (Or.inl ⟨rfl, rfl⟩)
      case isFalse hready => exact Or.inr (Or.inr ⟨rfl, Nat.not_lt.mp hready, rfl⟩)

/-- A run is forced if a timer is set. -/
theorem force_cases (d : Debounce) (now version : Nat) :
    d.isPending = false ∧ d.force now version = (d, none) ∨
    d.isPending = true ∧ d.force now version =
      ({ d with nextRun := now, timer := none, runs := d.runs + 1 },
        some ⟨d.runs + 1, version⟩) := by
  unfold force isPending
  cases d.timer with
  | none => exact Or.inl ⟨rfl, rfl⟩
  | some due => exact Or.inr ⟨rfl, rfl⟩

/-- A call that hands out a ticket is no change and finds a timer, which it takes away. The ticket
has the number of runs so far. -/
theorem of_call_eq_some (h : (d.call c).2 = some ticket) :
    c.isChange = false ∧ d.isPending = true ∧ (d.call c).1.isPending = false ∧
      ticket.run = d.runs + 1 ∧ (d.call c).1.runs = d.runs + 1 := by
  cases c with
  | noteChange now => exact absurd h nofun
  | setDelay delay now => exact absurd h nofun
  | detach => exact absurd h nofun
  | poll now version =>
    simp only [call] at h ⊢
    rcases poll_cases d now version with heq | ⟨-, heq⟩ | ⟨hpending, -, heq⟩
    · simp [heq] at h
    · simp [heq] at h
    · rw [heq] at h ⊢
      obtain rfl := Option.some.inj h
      exact ⟨rfl, hpending, rfl, rfl, rfl⟩
  | force now version =>
    simp only [call] at h ⊢
    rcases force_cases d now version with ⟨-, heq⟩ | ⟨hpending, heq⟩
    · simp [heq] at h
    · rw [heq] at h ⊢
      obtain rfl := Option.some.inj h
      exact ⟨rfl, hpending, rfl, rfl, rfl⟩

/-- A call without a ticket starts no run, and leaves a timer set if there was one, or a change
was to lead to a run, unless the waiting ends. -/
theorem of_call_eq_none (h : (d.call c).2 = none) :
    (d.call c).1.runs = d.runs ∧
      (c ≠ .detach → (d.call c).1.isPending = (d.isPending || c.isChange && d.attached)) := by
  cases c with
  | noteChange now => simp [call, Call.isChange]
  | setDelay delay now =>
    exact ⟨runs_noteChange _ now, fun _ => isPending_noteChange { d with delay } now⟩
  | detach => simp [call, detach]
  | poll now version =>
    simp only [call] at h ⊢
    rcases poll_cases d now version with heq | ⟨hpending, heq⟩ | ⟨-, -, heq⟩
    · simp [heq, Call.isChange]
    · simp [heq, isPending, Call.isChange] at hpending ⊢
      exact hpending
    · simp [heq] at h
  | force now version =>
    simp only [call] at h ⊢
    rcases force_cases d now version with ⟨-, heq⟩ | ⟨-, heq⟩
    · simp [heq, Call.isChange]
    · simp [heq] at h

/-- Changes lead to runs until the waiting ends. -/
theorem attached_call (d : Debounce) (c : Call) :
    (d.call c).1.attached = (d.attached && c != .detach) := by
  cases c with
  | noteChange now => simp [call]
  | setDelay delay now => simp [call, setDelay]
  | detach => simp [call, detach]
  | poll now version =>
    simp only [call]
    rcases poll_cases d now version with heq | ⟨-, heq⟩ | ⟨-, -, heq⟩ <;> simp [heq]
  | force now version =>
    simp only [call]
    rcases force_cases d now version with ⟨-, heq⟩ | ⟨-, heq⟩ <;> simp [heq]

/-- A poll that starts a run finds a timer, and the next run may start, up to the tolerance. -/
theorem nextRun_le_of_poll {now version : Nat} (h : (d.poll now version).2 = some ticket) :
    d.isPending = true ∧ d.nextRun ≤ now + tolerance := by
  rcases poll_cases d now version with heq | ⟨-, heq⟩ | ⟨hpending, hready, -⟩
  · simp [heq] at h
  · simp [heq] at h
  · exact ⟨hpending, hready⟩

/-- The timer that a poll finds due starts a run once the quiet period is over. -/
theorem exists_ticket_of_poll {deadline now : Nat} (set : d.timer = some deadline)
    (passed : deadline ≤ now) (quiet : d.nextRun ≤ now) (version : Nat) :
    ∃ ticket, (d.poll now version).2 = some ticket := by
  have hready : ¬ now + tolerance < d.nextRun :=
    Nat.not_lt.mpr (Nat.le_trans quiet (Nat.le_add_right now tolerance))
  simp [poll, set, Nat.not_lt.mpr passed, hready, start]

/-- A history starts as many runs as it has tickets. -/
theorem runs_after (d : Debounce) (calls : List Call) :
    (d.after calls).runs = d.runs + (d.tickets calls).length := by
  induction calls generalizing d with
  | nil => rfl
  | cons c rest ih =>
    rw [after_cons, ih, tickets, List.length_append]
    cases hticket : (d.call c).2 with
    | none =>
      rw [(of_call_eq_none hticket).1]
      simp
    | some ticket =>
      obtain ⟨-, -, -, -, hruns⟩ := of_call_eq_some hticket
      rw [hruns, Option.toList_some, List.length_singleton, Nat.add_assoc]

/-- Tickets are numbered in order. -/
theorem run_of_getElem?_tickets {k : Nat} (h : (d.tickets calls)[k]? = some ticket) :
    ticket.run = d.runs + k + 1 := by
  induction calls generalizing d k with
  | nil => simp [tickets] at h
  | cons c rest ih =>
    rw [tickets] at h
    cases hticket : (d.call c).2 with
    | none =>
      rw [hticket] at h
      rw [ih h, (of_call_eq_none hticket).1]
    | some first =>
      obtain ⟨-, -, -, hrun, hruns⟩ := of_call_eq_some hticket
      rw [hticket] at h
      cases k with
      | zero =>
        obtain rfl := Option.some.inj h
        exact hrun
      | succ k =>
        rw [ih h, hruns]
        omega

/-- No call hands out more than its credit: a set timer and a change are worth one ticket each. -/
theorem credit_call (d : Debounce) (c : Call) :
    (d.call c).2.toList.length + (d.call c).1.isPending.toNat ≤
      d.isPending.toNat + c.isChange.toNat := by
  cases hticket : (d.call c).2 with
  | none =>
    by_cases hdetach : c = .detach
    · subst hdetach
      exact Nat.zero_le _
    · rw [(of_call_eq_none hticket).2 hdetach]
      cases d.isPending <;> cases c.isChange <;> cases d.attached <;> decide
  | some ticket =>
    obtain ⟨hchange, hpending, hnext, -⟩ := of_call_eq_some hticket
    rw [hchange, hpending, hnext]
    exact Nat.le_refl 1

/-- No history has more tickets than its credit. -/
theorem length_tickets_add_le (d : Debounce) (calls : List Call) :
    (d.tickets calls).length + (d.after calls).isPending.toNat ≤
      d.isPending.toNat + calls.countP Call.isChange := by
  induction calls generalizing d with
  | nil => exact Nat.le_of_eq (Nat.add_comm _ _)
  | cons c rest ih =>
    have hfirst := credit_call d c
    have hrest := ih (d.call c).1
    have hcount : (c :: rest).countP Call.isChange =
        rest.countP Call.isChange + c.isChange.toNat := by
      rw [List.countP_cons]
      cases c.isChange <;> rfl
    rw [after_cons, tickets, List.length_append, hcount]
    omega

/-- Between two calls that start runs a change is reported. -/
theorem exists_change_between {first second : Call} {between : List Call}
    (hfirst : (d.call first).2.isSome = true)
    (hsecond : ((d.after (first :: between)).call second).2.isSome = true) :
    ∃ c ∈ between, c.isChange = true := by
  obtain ⟨ticket, hticket⟩ := Option.isSome_iff_exists.mp hfirst
  obtain ⟨later, hlater⟩ := Option.isSome_iff_exists.mp hsecond
  obtain ⟨-, -, hspent, -⟩ := of_call_eq_some hticket
  obtain ⟨-, hpending, -⟩ := of_call_eq_some hlater
  have hcredit := length_tickets_add_le (d.call first).1 between
  rw [after_cons] at hpending
  rw [hspent, hpending] at hcredit
  refine List.countP_pos_iff.mp ?_
  simp only [Bool.toNat_true, Bool.toNat_false] at hcredit
  omega

/-- While no run starts, a timer is set exactly if one was or a change is reported. -/
theorem isPending_after (attached : d.attached = true) (stays : .detach ∉ calls)
    (quiet : d.tickets calls = []) :
    (d.after calls).isPending = (d.isPending || calls.any Call.isChange) := by
  induction calls generalizing d with
  | nil => exact (Bool.or_false _).symm
  | cons c rest ih =>
    obtain ⟨hc, hrest⟩ := not_or.mp (mt List.mem_cons.mpr stays)
    obtain ⟨hnone, hquiet⟩ := List.append_eq_nil_iff.mp quiet
    have hnext : (d.call c).1.attached = true := by
      rw [attached_call, attached]
      simpa using Ne.symm hc
    rw [after_cons, ih hnext hrest hquiet,
      (of_call_eq_none (Option.toList_eq_nil_iff.mp hnone)).2 (Ne.symm hc), attached,
      Bool.and_true, Bool.or_assoc, List.any_cons]

/-- The waiting ends with a detach and goes on otherwise. -/
theorem attached_after (d : Debounce) (calls : List Call) :
    (d.after calls).attached = (d.attached && !calls.contains .detach) := by
  induction calls generalizing d with
  | nil => exact (Bool.and_true _).symm
  | cons c rest ih =>
    rw [after_cons, ih, attached_call, List.contains_cons, Bool.and_assoc, Bool.not_or, bne,
      Bool.beq_comm]

/-- The waiting in terms of the latest change: its quiet period is the one in force, a set timer
waits for it to be over, and no timer is set when changes lead to nothing. -/
structure Tracks (d : Debounce) (last : Change) : Prop where
  delay : d.delay = last.delay
  idle : d.attached = false → d.isPending = false
  due : d.isPending = true → d.nextRun = last.due

/-- Waiting begins with a change. -/
theorem tracks_attach (delay now : Nat) : (attach delay now).Tracks ⟨now, delay⟩ :=
  ⟨rfl, nofun, fun _ => rfl⟩

/-- A change that is reported is the latest one, whatever the timer was set for. -/
theorem tracks_noteChange {last : Change} (delay : d.delay = last.delay)
    (idle : d.attached = false → d.isPending = false) (now : Nat) :
    (d.noteChange now).Tracks { last with time := now } := by
  unfold noteChange
  split
  case isTrue hattached =>
    refine ⟨delay, fun hdetached => ?_, fun _ => congrArg (now + ·) delay⟩
    exact absurd (hattached.symm.trans hdetached) nofun
  case isFalse hdetached =>
    have hidle := idle (Bool.eq_false_iff.mpr hdetached)
    exact ⟨delay, fun _ => hidle, fun hpending => absurd (hidle.symm.trans hpending) nofun⟩

/-- Every call keeps track of the latest change. -/
theorem Tracks.call {last : Change} (h : d.Tracks last) (c : Call) :
    (d.call c).1.Tracks (last.next c) := by
  cases c with
  | noteChange now => exact tracks_noteChange h.delay h.idle now
  | setDelay delay now =>
    have hset : ({ d with delay } : Debounce).delay = ({ last with delay } : Change).delay := rfl
    exact tracks_noteChange hset h.idle now
  | poll now version =>
    simp only [Debounce.call, Change.next]
    rcases poll_cases d now version with heq | ⟨hpending, heq⟩ | ⟨-, -, heq⟩
    · rw [heq]
      exact h
    · rw [heq]
      refine ⟨h.delay, fun hdetached => ?_, fun _ => h.due hpending⟩
      exact absurd ((h.idle hdetached).symm.trans hpending) nofun
    · rw [heq]
      exact ⟨h.delay, fun _ => rfl, nofun⟩
  | force now version =>
    simp only [Debounce.call, Change.next]
    rcases force_cases d now version with ⟨-, heq⟩ | ⟨-, heq⟩
    · rw [heq]
      exact h
    · rw [heq]
      exact ⟨h.delay, fun _ => rfl, nofun⟩
  | detach => exact ⟨h.delay, fun _ => rfl, nofun⟩

/-- Every history keeps track of the latest change. -/
theorem Tracks.after {last : Change} (h : d.Tracks last) (calls : List Call) :
    (d.after calls).Tracks (last.latest calls) := by
  induction calls generalizing d last with
  | nil => exact h
  | cons c rest ih => exact ih (h.call c)

/-- Until the waiting ends, a change since the latest ticket, or having begun since, leaves a
timer set. -/
theorem isPending_of_change {delay now : Nat} {before since : List Call}
    (stays : .detach ∉ before ++ since)
    (quiet : ((attach delay now).after before).tickets since = [])
    (changed : before = [] ∨ ∃ c ∈ since, c.isChange = true) :
    ((attach delay now).after (before ++ since)).isPending = true := by
  obtain ⟨hbefore, hsince⟩ := not_or.mp (mt List.mem_append.mpr stays)
  have hattached : ((attach delay now).after before).attached = true := by
    rw [attached_after]
    simpa [attach] using hbefore
  rw [after_append, isPending_after hattached hsince quiet]
  rcases changed with rfl | hchange
  · rfl
  · rw [List.any_eq_true.mpr hchange, Bool.or_true]

/-- Without a timer no call starts a run. -/
theorem call_eq_none_of_not_isPending (h : d.isPending = false) (c : Call) :
    (d.call c).2 = none := by
  refine Option.eq_none_iff_forall_ne_some.mpr fun ticket hticket => ?_
  obtain ⟨-, hpending, -⟩ := of_call_eq_some hticket
  exact absurd (h.symm.trans hpending) nofun

/-- What every history has in common, whatever its times are. Its tickets are numbered from 1.
Between any two calls that start runs a change is reported, so there are no more tickets than
changes and one. A poll starts a run only if the quiet period after the latest change is over, up
to the tolerance. Until the waiting ends, a change since the latest ticket, or having begun since,
leaves a timer set, and a poll past its time and past the quiet period starts a run. Once the
waiting has ended, no timer is set and no call starts a run. -/
theorem tickets_follow_changes (delay now : Nat) (calls : List Call) :
    (∀ k ticket, ((attach delay now).tickets calls)[k]? = some ticket → ticket.run = k + 1) ∧
    (∀ before first between second rest,
      calls = before ++ first :: (between ++ second :: rest) →
      (((attach delay now).after before).call first).2.isSome = true →
      (((attach delay now).after (before ++ first :: between)).call second).2.isSome = true →
      ∃ c ∈ between, c.isChange = true) ∧
    ((attach delay now).tickets calls).length ≤ 1 + calls.countP Call.isChange ∧
    (∀ t version ticket, (((attach delay now).after calls).poll t version).2 = some ticket →
      (Change.latest ⟨now, delay⟩ calls).due ≤ t + tolerance) ∧
    (.detach ∉ calls → ∀ before since, calls = before ++ since →
      ((attach delay now).after before).tickets since = [] →
      (before = [] ∨ ∃ c ∈ since, c.isChange = true) →
      ∃ deadline, ((attach delay now).after calls).timer = some deadline ∧
        ∀ t version, deadline ≤ t → (Change.latest ⟨now, delay⟩ calls).due ≤ t →
          ∃ ticket, (((attach delay now).after calls).poll t version).2 = some ticket) ∧
    (.detach ∈ calls → ((attach delay now).after calls).timer = none ∧
      ∀ c, (((attach delay now).after calls).call c).2 = none) := by
  have tracks := (tracks_attach delay now).after calls
  refine ⟨?_, ?_, ?_, ?_, ?_, ?_⟩
  · intro k ticket hticket
    rw [run_of_getElem?_tickets hticket]
    exact congrArg (· + 1) (Nat.zero_add k)
  · rintro before first between second rest - hfirst hsecond
    rw [after_append] at hsecond
    exact exists_change_between hfirst hsecond
  · exact Nat.le_trans (Nat.le_add_right _ _) (length_tickets_add_le _ calls)
  · intro t version ticket hticket
    obtain ⟨hpending, hready⟩ := nextRun_le_of_poll hticket
    rw [← tracks.due hpending]
    exact hready
  · rintro stays before since rfl quiet changed
    have hpending := isPending_of_change stays quiet changed
    obtain ⟨deadline, hdeadline⟩ := Option.isSome_iff_exists.mp hpending
    refine ⟨deadline, hdeadline, fun t version hpassed hquiet => ?_⟩
    rw [← tracks.due hpending] at hquiet
    exact exists_ticket_of_poll hdeadline hpassed hquiet version
  · intro hdetach
    have hdetached : ((attach delay now).after calls).attached = false := by
      rw [attached_after]
      simpa [attach] using hdetach
    have hidle := tracks.idle hdetached
    refine ⟨?_, call_eq_none_of_not_isPending hidle⟩
    exact Option.not_isSome_iff_eq_none.mp (Bool.eq_false_iff.mp hidle)

/-- A burst of two changes. The timer of the first is much too early and is set again; past the
quiet period after the second, a poll starts the run. -/
theorem tickets_follow_changes_burst :
    let burst : List Call :=
      [.poll 750 0, .noteChange 2000, .noteChange 2900, .poll 2750 1]
    .detach ∉ burst ∧ (attach 750 0).tickets burst = [⟨1, 0⟩] ∧
      ((attach 750 0).after burst).timer = some 3650 ∧
      ∃ ticket, (((attach 750 0).after burst).poll 3650 2).2 = some ticket := by
  intro burst
  obtain ⟨-, -, -, -, due, -⟩ := tickets_follow_changes 750 0 burst
  obtain ⟨deadline, hdeadline, starts⟩ := due (by decide) [.poll 750 0]
    [.noteChange 2000, .noteChange 2900, .poll 2750 1] rfl rfl
    (Or.inr ⟨.noteChange 2000, by decide, rfl⟩)
  obtain rfl : 3650 = deadline := Option.some.inj hdeadline
  exact ⟨by decide, rfl, rfl, starts 3650 2 (Nat.le_refl _) (by decide)⟩

end Marginalia.Debounce
