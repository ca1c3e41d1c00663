import Marginalia.Proofs.Engine.Gutter
import Marginalia.Proofs.View.Due

/-!
# Deadlines of engines

The deadline of an engine is the earlier of two times: that of the evaluation timer and the earliest
at a marker. Polling for evaluations leaves a timer that lies ahead, be it set again, and polling
the gutter leaves times that lie ahead. So after both polls the deadline does, and polls before the
deadline do nothing.
-/

namespace Marginalia

namespace Debounce

variable {d : Debounce} {now version : Nat}

/-- A poll does nothing while the timer lies ahead. -/
theorem poll_eq_of_ahead (ahead : ∀ due, d.timer = some due → now < due) (version : Nat) :
    d.poll now version = (d, none) := by
  unfold poll
  split
  case h_1 => rfl
  case h_2 due hdue => rw [if_pos (ahead due hdue)]

/-- A timer that a poll leaves lies ahead. -/
theorem lt_timer_of_poll {due : Nat} (h : (d.poll now version).1.timer = some due) : now < due := by
  unfold poll at h
  split at h
  case h_1 hnone => rw [hnone] at h; contradiction
  case h_2 set hset =>
    split at h
    case isTrue hlater =>
      obtain rfl := Option.some.inj (hset.symm.trans h)
      exact hlater
    case isFalse =>
      split at h
      case isTrue hearly =>
        obtain rfl := Option.some.inj h
        omega
      case isFalse => exact absurd h nofun

/-- A second poll at the same time finds nothing due. -/
theorem poll_poll (d : Debounce) (now version version' : Nat) :
    (d.poll now version).1.poll now version' = ((d.poll now version).1, none) :=
  poll_eq_of_ahead (fun _ => lt_timer_of_poll) version'

end Debounce

namespace Engine

variable {en : Engine} {now : Nat}

/-- The deadline of an engine lies ahead exactly when its timer and the times at all markers do. -/
theorem lt_nextDeadline_iff :
    (∀ deadline, en.nextDeadline = some deadline → now < deadline) ↔
      (∀ due, en.debounce.timer = some due → now < due) ∧
        Gutter.IsAhead en.gutter.markers now := by
  rw [← Gutter.lt_nextDue_iff]
  unfold nextDeadline
  cases en.debounce.timer with
  | none => simp
  | some a =>
    cases en.gutter.nextDue with
    | none => simp
    | some b =>
      have hmin : now < min a b ↔ now < a ∧ now < b := Nat.lt_min
      simp only [Option.some.injEq, forall_eq', hmin]

/-- In every state that a run leads to, polling for an evaluation and for a pop-up leaves no
deadline that is not ahead, and neither does anything before the deadline or without one. A pop-up
opens exactly if some marker is due and has anything to list under the filter, and then it is the
pop-up of the last such marker in line order. Otherwise the pop-up that was open stays. -/
theorem polls_clear_due_times {doc : Document} {options : Options} {begun : Nat}
    {events : List Event} (ran : Run (attach doc options begun) events en)
    (built : ∀ ev ∈ events, ∀ e, ev.operation.edit? = some e → e.Built) (now : Nat) :
    (∀ deadline, ((en.poll now).1.gutterPoll now).1.nextDeadline = some deadline →
        now < deadline) ∧
      ((∀ deadline, en.nextDeadline = some deadline → now < deadline) →
        en.poll now = (en, none) ∧ en.gutterPoll now = (en, none)) ∧
      (∀ p, (en.gutterPoll now).2 = some p ↔ ∃ m ∈ en.gutter.markers,
        m.Opens now en.options.gutter ∧ p = ⟨m.lineStart, m.listed en.options.gutter⟩ ∧
        ∀ other ∈ en.gutter.markers, other.Opens now en.options.gutter →
          other.lineStart ≤ m.lineStart) ∧
      (en.gutterPoll now).1.gutter.popup = (en.gutterPoll now).2.or en.gutter.popup := by
  have sound := ran.gutter_sound (Gutter.sound_empty doc.text) built
  refine ⟨?_, fun hahead => ?_, fun p => Gutter.duePopup?_eq_some_iff sound.ascends, rfl⟩
  · rw [lt_nextDeadline_iff]
    exact ⟨fun due => Debounce.lt_timer_of_poll, Gutter.isAhead_poll _ now _⟩
  · obtain ⟨htimer, hmarkers⟩ := lt_nextDeadline_iff.mp hahead
    rw [poll, gutterPoll, Debounce.poll_eq_of_ahead htimer,
      Gutter.poll_eq_of_isAhead hmarkers]
    exact ⟨rfl, rfl⟩

/-- Settings under which pop-ups leave out what is less than a warning. -/
private def warningsInPopups : Options :=
  { Options.standard with
    gutter := { Gutter.Options.standard with popupFilter := some (Filter.atLeast .warning) } }

/-- A pointer has come to an error on one line and to a hint on the next, and then a filter has been
set that leaves the hint out. -/
private theorem exists_pointed_at_both :
    let doc : Document := .ofText "main" ['a', '\n', 'b']
    let wrong : Report := ⟨.error ⟨"main", ⟨0, 1⟩⟩ "wrong", .host 0⟩
    let hint : Report := ⟨⟨⟨"main", ⟨2, 3⟩⟩, .hint, "hint", none, [], none⟩, .host 1⟩
    ∃ filled first second filtered,
      (attach doc .standard 0).perform ⟨0, 0⟩ (.setReports [wrong, hint] 0) = .ok filled ∧
      filled.engine.perform ⟨0, 0⟩ (.gutterOver 0 0) = .ok first ∧
      first.engine.perform ⟨0, 0⟩ (.gutterOver 2 0) = .ok second ∧
      second.engine.perform ⟨0, 0⟩ (.setOptions warningsInPopups 100) = .ok filtered ∧
      filtered.engine.options = warningsInPopups ∧
      filtered.engine.nextDeadline = some 300 ∧
      filtered.engine.gutter.markers =
        [⟨0, .error, [wrong], some 300⟩, ⟨2, .hint, [hint], some 300⟩] :=
  ⟨_, _, _, _, rfl, rfl, rfl, rfl, rfl, rfl, rfl⟩

/-- Both markers are due, but only that of the first line has anything to list any more. After the
polls the deadline lies ahead. -/
theorem polls_clear_due_times_under_filter :
    let doc : Document := .ofText "main" ['a', '\n', 'b']
    let wrong : Report := ⟨.error ⟨"main", ⟨0, 1⟩⟩ "wrong", .host 0⟩
    let hint : Report := ⟨⟨⟨"main", ⟨2, 3⟩⟩, .hint, "hint", none, [], none⟩, .host 1⟩
    ∃ events en, events.map (·.operation) = [.setReports [wrong, hint] 0, .gutterOver 0 0,
        .gutterOver 2 0, .setOptions warningsInPopups 100] ∧
      Run (attach doc .standard 0) events en ∧
      (∀ ev ∈ events, ∀ e, ev.operation.edit? = some e → e.Built) ∧
      en.nextDeadline = some 300 ∧ en.poll 299 = (en, none) ∧ en.gutterPoll 299 = (en, none) ∧
      (en.gutterPoll 300).2 = some ⟨0, [wrong]⟩ ∧
      ∀ deadline, ((en.poll 300).1.gutterPoll 300).1.nextDeadline = some deadline →
        300 < deadline := by
  intro doc wrong hint
  obtain ⟨filled, first, second, filtered, hfilled, hfirst, hsecond, hfiltered, hoptions, hdeadline,
    hmarkers⟩ := exists_pointed_at_both
  let events : List Event :=
    [⟨attach doc .standard 0, ⟨0, 0⟩, .setReports [wrong, hint] 0, filled⟩,
      ⟨filled.engine, ⟨0, 0⟩, .gutterOver 0 0, first⟩,
      ⟨first.engine, ⟨0, 0⟩, .gutterOver 2 0, second⟩,
      ⟨second.engine, ⟨0, 0⟩, .setOptions warningsInPopups 100, filtered⟩]
  have ran : Run (attach doc .standard 0) events filtered.engine :=
    (((Run.nil.step hfilled).step hfirst).step hsecond).step hfiltered
  have built : ∀ ev ∈ events, ∀ e, ev.operation.edit? = some e → e.Built := by
    simp only [events, List.forall_mem_cons]
    exact ⟨Operation.built_of_bare _ rfl, Operation.built_of_bare _ rfl,
      Operation.built_of_bare _ rfl, Operation.built_of_bare _ rfl, List.forall_mem_nil _⟩
  obtain ⟨hcleared, -, hopened, -⟩ := polls_clear_due_times ran built 300
  obtain ⟨-, hidle, -⟩ := polls_clear_due_times ran built 299
  have hahead : ∀ deadline, filtered.engine.nextDeadline = some deadline → 299 < deadline := by
    rw [hdeadline]
    rintro _ ⟨⟩
    decide
  refine ⟨events, _, rfl, ran, built, hdeadline, (hidle hahead).1, (hidle hahead).2, ?_, hcleared⟩
  rw [hopened, hoptions, hmarkers]
  refine ⟨_, List.mem_cons_self, ⟨⟨300, Nat.le_refl _, rfl⟩, by decide⟩, rfl, ?_⟩
  -- the marker of the second line is due and has nothing to list
  simp only [List.forall_mem_cons]
  refine ⟨fun _ => Nat.le_refl _, fun hopens => ?_, List.forall_mem_nil _⟩
  exact absurd hopens.lists (by decide)

end Engine

end Marginalia
