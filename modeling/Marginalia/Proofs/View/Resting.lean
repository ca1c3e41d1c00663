import Mathlib.Data.List.Nodup
import Marginalia.Proofs.Since
import Marginalia.Proofs.View.Due
import Marginalia.Proofs.View.Gutter

/-!
# Pointers that rest on markers

While no edit comes and no markers are made anew, the pointer and polls change nothing of the
markers but their times. What a call does to a marker does not depend on the others, since no two
are on one line. So a time runs from when the pointer has come to the marker until it leaves or a
poll finds the time due, and counts from when the pointer last came or moved there. A pop-up opens
only when such a time has come.
-/

namespace Marginalia.Gutter

/-- What the pointer does at markers, and polls, each under settings of its own. -/
inductive Call where
  | arrive (lineStart now : Nat) (options : Options)
  | move (lineStart now : Nat) (options : Options)
  | leave (lineStart : Nat)
  | poll (now : Nat) (options : Options)

/-- What a call leaves. -/
def call (g : Gutter) : Call → Gutter
  | .arrive lineStart now options => (g.pointerOver lineStart now options).1
  | .move lineStart now options => g.pointerMove lineStart now options
  | .leave lineStart => g.pointerOut lineStart
  | .poll now options => (g.poll now options).1

/-- What calls leave. -/
def after (g : Gutter) (calls : List Call) : Gutter := calls.foldl call g

/-- The time that runs at the marker of a line. -/
def due? (g : Gutter) (lineStart : Nat) : Option Nat := (g.marker? lineStart).bind (·.due)

/-- The pointer comes to the marker of the line, and that answers that its time has started. -/
inductive Arms (lineStart : Nat) (g : Gutter) : Call → Prop where
  | arrive {now : Nat} {options : Options}
    (taken : (g.pointerOver lineStart now options).2 = true) :
    Arms lineStart g (.arrive lineStart now options)

/-- The pointer leaves the marker of the line, or a poll finds its time due. -/
inductive Disarms (lineStart : Nat) (g : Gutter) : Call → Prop where
  | leave : Disarms lineStart g (.leave lineStart)
  | poll {now due : Nat} {options : Options} (runs : g.due? lineStart = some due)
    (passed : due ≤ now) : Disarms lineStart g (.poll now options)

/-- The pointer comes to the marker of the line so that its time starts, or moves on it. The number
is when the pop-up opens if the pointer rests from then on. -/
inductive Times (lineStart : Nat) (g : Gutter) : Call → Nat → Prop where
  | arrive {now : Nat} {options : Options}
    (taken : (g.pointerOver lineStart now options).2 = true) :
    Times lineStart g (.arrive lineStart now options) (now + options.hoverTime)
  | move {now : Nat} {options : Options} :
    Times lineStart g (.move lineStart now options) (now + options.hoverTime)

/-- What a call does to a single marker. -/
def Call.touch (m : Marker) : Call → Marker
  | .arrive lineStart now options =>
    if m.lineStart = lineStart ∧ m.listed options ≠ [] then
      { m with due := some (now + options.hoverTime) }
    else m
  | .move lineStart now options =>
    if m.lineStart = lineStart ∧ m.due.isSome then
      { m with due := some (now + options.hoverTime) }
    else m
  | .leave lineStart => if m.lineStart = lineStart then { m with due := none } else m
  | .poll now _ => if m.isDue now then { m with due := none } else m

/-- What becomes of the time at the marker of a line. -/
inductive Touched (lineStart : Nat) (g : Gutter) (m : Marker) (c : Call) : Prop where
  /-- It starts. -/
  | starts {due : Nat} (arms : Arms lineStart g c) (times : Times lineStart g c due)
    (is : (c.touch m).due = some due)
  /-- It runs and starts again. -/
  | restarts {due : Nat} (runs : m.due.isSome = true) (keeps : ¬ Disarms lineStart g c)
    (times : Times lineStart g c due) (is : (c.touch m).due = some due)
  /-- It stops. -/
  | stops (idle : ¬ Arms lineStart g c) (disarms : Disarms lineStart g c)
    (is : (c.touch m).due = none)
  /-- It stays as it is, and only a move on a marker at which none runs leaves it so. -/
  | stays (idle : ¬ Arms lineStart g c) (keeps : ¬ Disarms lineStart g c)
    (timeless : ∀ due, Times lineStart g c due → m.due = none) (is : (c.touch m).due = m.due)

variable {g : Gutter} {markers : List Marker} {m : Marker} {c : Call} {lineStart : Nat}

/-- A call leaves a marker on its line. -/
@[simp] theorem lineStart_touch (c : Call) (m : Marker) : (c.touch m).lineStart = m.lineStart := by
  cases c <;> simp only [Call.touch] <;> split <;> rfl

/-- Markers in line order are one on each line. -/
theorem eq_of_lineStart_eq (ascends : markers.Pairwise fun a b => a.lineStart < b.lineStart)
    {other : Marker} (hm : m ∈ markers) (hother : other ∈ markers)
    (h : m.lineStart = other.lineStart) : m = other := by
  have hlines : (markers.map (·.lineStart)).Nodup :=
    List.pairwise_map.mpr (ascends.imp Nat.ne_of_lt)
  exact List.inj_on_of_nodup_map hlines hm hother h

/-- A time starts when the pointer comes to a marker that has anything to list. -/
theorem pointerOver_taken_iff {now : Nat} {options : Options} :
    (g.pointerOver lineStart now options).2 = true ↔
      ∃ m, g.marker? lineStart = some m ∧ m.listed options ≠ [] := by
  unfold pointerOver
  split
  case h_1 hnone => simp [hnone]
  case h_2 m hmarker => split <;> simp_all

/-- What a call does to the time at the marker of a line. -/
theorem touched (hmarker : g.marker? lineStart = some m) (hline : m.lineStart = lineStart)
    (c : Call) : Touched lineStart g m c := by
  have hdue : g.due? lineStart = m.due := by rw [due?, hmarker, Option.bind_some]
  cases c with
  | arrive line now options =>
    by_cases hover : m.lineStart = line ∧ m.listed options ≠ []
    · obtain rfl := hline.symm.trans hover.1
      have taken : (g.pointerOver lineStart now options).2 = true :=
        pointerOver_taken_iff.mpr ⟨m, hmarker, hover.2⟩
      exact .starts (.arrive taken) (.arrive taken) (by rw [Call.touch, if_pos hover])
    · have refused : ¬ (line = lineStart ∧ (g.pointerOver line now options).2 = true) := by
        rintro ⟨rfl, taken⟩
        obtain ⟨found, hfound, hlists⟩ := pointerOver_taken_iff.mp taken
        obtain rfl := Option.some.inj (hmarker.symm.trans hfound)
        exact hover ⟨hline, hlists⟩
      exact .stays (fun ⟨taken⟩ => refused ⟨rfl, taken⟩) nofun
        (fun _ (.arrive taken) => absurd ⟨rfl, taken⟩ refused) (by rw [Call.touch, if_neg hover])
  | move line now options =>
    by_cases hmove : m.lineStart = line ∧ m.due.isSome = true
    · obtain rfl := hline.symm.trans hmove.1
      exact .restarts hmove.2 nofun .move (by rw [Call.touch, if_pos hmove])
    · refine .stays nofun nofun (fun _ htimes => ?_) (by rw [Call.touch, if_neg hmove])
      cases htimes
      exact Option.not_isSome_iff_eq_none.mp fun hruns => hmove ⟨hline, hruns⟩
  | leave line =>
    by_cases hout : m.lineStart = line
    · obtain rfl := hline.symm.trans hout
      exact .stops nofun .leave (by rw [Call.touch, if_pos hout])
    · refine .stays nofun (fun hdisarms => ?_) nofun (by rw [Call.touch, if_neg hout])
      cases hdisarms
      exact hout hline
  | poll now options =>
    by_cases hpoll : m.isDue now = true
    · obtain ⟨due, hpassed, hset⟩ := Marker.isDue_iff.mp hpoll
      exact .stops nofun (.poll (hdue.trans hset) hpassed) (by rw [Call.touch, if_pos hpoll])
    · refine .stays nofun (fun hdisarms => ?_) nofun (by rw [Call.touch, if_neg hpoll])
      cases hdisarms with
      | poll runs passed =>
        exact hpoll (Marker.isDue_iff.mpr ⟨_, passed, hdue.symm.trans runs⟩)

/-- A change of the first marker of its kind is one of all markers of the kind, if it is alone. -/
theorem updateFirst_eq_map {which : Marker → Bool} (change : Marker → Marker)
    (alone : markers.Pairwise fun a b => which a = true → which b = false) :
    updateFirst which change markers = markers.map fun m => if which m then change m else m := by
  induction markers with
  | nil => rfl
  | cons m rest ih =>
    obtain ⟨hfirst, hrest⟩ := List.pairwise_cons.mp alone
    rw [updateFirst, List.map_cons]
    split
    case isTrue hwhich =>
      refine congrArg _ ((List.map_congr_left fun other hother => ?_).trans (List.map_id rest)).symm
      rw [hfirst other hother hwhich]
      rfl
    case isFalse => rw [ih hrest]

section Ascending

variable (ascends : g.markers.Pairwise fun a b => a.lineStart < b.lineStart)
include ascends

/-- A change of the first marker of a kind that is on one line is one of all markers of the kind. -/
theorem updateFirst_eq_map_of_line (lineStart : Nat) {which : Marker → Bool}
    (change : Marker → Marker) (h : ∀ m, which m = true → m.lineStart = lineStart) :
    updateFirst which change g.markers = g.markers.map fun m => if which m then change m else m :=
  updateFirst_eq_map change (ascends.imp fun hlt ha => Bool.eq_false_iff.mpr fun hb =>
    absurd ((h _ ha).trans (h _ hb).symm) (Nat.ne_of_lt hlt))

/-- The marker of a line is the one that is there. -/
theorem marker?_eq_some_iff :
    g.marker? lineStart = some m ↔ m ∈ g.markers ∧ m.lineStart = lineStart := by
  constructor
  · intro h
    exact ⟨List.mem_of_find?_eq_some h, by simpa using List.find?_some h⟩
  · rintro ⟨hm, rfl⟩
    have hsome : (g.marker? m.lineStart).isSome = true := List.find?_isSome.mpr ⟨m, hm, by simp⟩
    obtain ⟨found, hfound⟩ := Option.isSome_iff_exists.mp hsome
    have hline : found.lineStart = m.lineStart := by simpa using List.find?_some hfound
    rw [hfound, eq_of_lineStart_eq ascends (List.mem_of_find?_eq_some hfound) hm hline]

/-- A call does to the markers what it does to each. -/
theorem markers_call (c : Call) : (g.call c).markers = g.markers.map c.touch := by
  cases c with
  | arrive lineStart now options =>
    simp only [call, pointerOver]
    split
    case h_1 hnone =>
      refine ((List.map_congr_left fun m hm => if_neg fun h => ?_).trans (List.map_id _)).symm
      rw [(marker?_eq_some_iff ascends).mpr ⟨hm, h.1⟩] at hnone
      contradiction
    case h_2 found hfound =>
      obtain ⟨hmem, hline⟩ := (marker?_eq_some_iff ascends).mp hfound
      have hone : ∀ m ∈ g.markers, m.lineStart = lineStart → m = found :=
        fun m hm h => eq_of_lineStart_eq ascends hm hmem (h.trans hline.symm)
      split
      case isTrue hempty =>
        refine ((List.map_congr_left fun m hm => if_neg fun h => h.2 ?_).trans (List.map_id _)).symm
        rw [hone m hm h.1]
        exact List.isEmpty_iff.mp hempty
      case isFalse hlists =>
        refine (updateFirst_eq_map_of_line ascends lineStart _ fun m h => beq_iff_eq.mp h).trans
          (List.map_congr_left fun m hm => ?_)
        have hboth : m.lineStart = lineStart ↔ m.lineStart = lineStart ∧ m.listed options ≠ [] := by
          refine ⟨fun h => ⟨h, ?_⟩, And.left⟩
          rw [hone m hm h]
          exact mt List.isEmpty_iff.mpr hlists
        simp only [Call.touch, beq_iff_eq, ← hboth]
  | move lineStart now options =>
    refine (updateFirst_eq_map_of_line ascends lineStart _ fun m h => ?_).trans
      (List.map_congr_left fun m _ => ?_)
    · rw [Bool.and_eq_true, beq_iff_eq] at h
      exact h.1
    · simp only [Call.touch, Bool.and_eq_true, beq_iff_eq]
  | leave lineStart =>
    refine (updateFirst_eq_map_of_line ascends lineStart _ fun m h => beq_iff_eq.mp h).trans
      (List.map_congr_left fun m _ => ?_)
    simp only [Call.touch, beq_iff_eq]
  | poll now options => rfl

/-- A call keeps the markers in line order. -/
theorem ascends_call (c : Call) :
    (g.call c).markers.Pairwise fun a b => a.lineStart < b.lineStart := by
  rw [markers_call ascends, List.pairwise_map]
  simpa using ascends

/-- Calls keep the markers in line order. -/
theorem ascends_after (calls : List Call) :
    (g.after calls).markers.Pairwise fun a b => a.lineStart < b.lineStart := by
  induction calls generalizing g with
  | nil => exact ascends
  | cons c rest ih => exact ih (ascends_call ascends c)

/-- The time that runs at a line after a call is what the call leaves of that of its marker. -/
theorem due?_call (lineStart : Nat) (c : Call) :
    (g.call c).due? lineStart = (g.marker? lineStart).bind fun m => (c.touch m).due := by
  have hlines : ((fun m : Marker => m.lineStart == lineStart) ∘ c.touch) =
      fun m => m.lineStart == lineStart := by
    funext m
    simp
  rw [due?, marker?, markers_call ascends, List.find?_map, hlines, Option.bind_map]
  rfl

/-- After a call a time runs exactly if the call has started it, or it ran and the call does not
stop it. -/
theorem isSome_due?_call_iff (lineStart : Nat) (c : Call) :
    ((g.call c).due? lineStart).isSome = true ↔
      Arms lineStart g c ∨ (g.due? lineStart).isSome = true ∧ ¬ Disarms lineStart g c := by
  rw [due?_call ascends, due?]
  cases hmarker : g.marker? lineStart with
  | none =>
    refine iff_of_false nofun ?_
    rintro (harms | ⟨hruns, -⟩)
    · cases harms with
      | arrive taken =>
        obtain ⟨m, hfound, -⟩ := pointerOver_taken_iff.mp taken
        rw [hmarker] at hfound
        contradiction
    · contradiction
  | some m =>
    simp only [Option.bind_some]
    cases touched hmarker ((marker?_eq_some_iff ascends).mp hmarker).2 c with
    | starts arms times is => simp [is, arms]
    | restarts runs keeps times is => simp [is, runs, keeps]
    | stops idle disarms is => simp [is, idle, disarms]
    | stays idle keeps timeless is => simp [is, idle, keeps]

/-- A time that runs after a call counts from the call, or ran before and does not count from the
call. -/
theorem of_due?_call {due : Nat} (h : (g.call c).due? lineStart = some due) :
    Times lineStart g c due ∨
      g.due? lineStart = some due ∧ ¬ ∃ later, Times lineStart g c later := by
  rw [due?_call ascends] at h
  rw [due?]
  cases hmarker : g.marker? lineStart with
  | none =>
    rw [hmarker] at h
    contradiction
  | some m =>
    rw [hmarker, Option.bind_some] at h
    cases touched hmarker ((marker?_eq_some_iff ascends).mp hmarker).2 c with
    | starts arms times is =>
      obtain rfl := Option.some.inj (is.symm.trans h)
      exact Or.inl times
    | restarts runs keeps times is =>
      obtain rfl := Option.some.inj (is.symm.trans h)
      exact Or.inl times
    | stops idle disarms is =>
      rw [is] at h
      contradiction
    | stays idle keeps timeless is =>
      have hset := is.symm.trans h
      refine Or.inr ⟨hset, fun ⟨later, htimes⟩ => ?_⟩
      rw [timeless later htimes] at hset
      contradiction

end Ascending

/-- The gutters that hosts can come to, with any stores, documents and settings. -/
inductive Reachable : Gutter → Prop where
  | empty : Reachable empty
  | rebuild {g : Gutter} (earlier : Reachable g) (s : Store) (doc : Document)
    (filter : Option Filter) : Reachable (g.rebuild s doc filter).1
  | carry {g : Gutter} (earlier : Reachable g) {e : Edit} (formed : e.WellFormed)
    (before after : Document) : Reachable (g.carry e before after).1
  | call {g : Gutter} (earlier : Reachable g) (c : Call) : Reachable (g.call c)
  | pointerMoved {g : Gutter} (earlier : Reachable g) (pointer : ScreenPoint) (marker : Rect)
    (overPopup : Bool) (options : Options) :
    Reachable (g.pointerMoved pointer marker overPopup options).1
  | dismiss {g : Gutter} (earlier : Reachable g) : Reachable g.dismiss.1
  | cancel {g : Gutter} (earlier : Reachable g) : Reachable g.cancel.1

/-- The markers of every gutter are in line order, one on each line. -/
theorem Reachable.ascends (reached : g.Reachable) :
    g.markers.Pairwise fun a b => a.lineStart < b.lineStart := by
  induction reached with
  | empty => exact List.Pairwise.nil
  | rebuild earlier s doc filter => exact (sound_rebuild _ s doc filter).ascends
  | carry earlier formed before after ih => exact merge_pairwise (carryMarker?_pairwise formed ih)
  | call earlier c ih => exact ascends_call ih c
  | pointerMoved earlier pointer marker overPopup options ih =>
    unfold Gutter.pointerMoved
    split
    · exact ih
    · exact ih
  | dismiss earlier ih => exact ih
  | cancel earlier ih => exact List.pairwise_map.mpr ih

/-- From a gutter without times any calls leave a time at a marker exactly if the pointer has come
to it and the call was taken, and since then neither has the pointer left it nor a poll found the
time due. The time is then that of the latest call that has come to the marker and was taken, or has
moved on it, with the hover time of its settings. So a poll opens a pop-up only at a marker whose
time has come. -/
theorem popups_wait_for_pointer (reached : g.Reachable) (idle : ∀ m ∈ g.markers, m.due = none)
    (calls : List Call) :
    (∀ m ∈ (g.after calls).markers,
      (m.due.isSome = true ↔
        Since call (Arms m.lineStart) (Disarms m.lineStart) g calls) ∧
      ∀ due, m.due = some due → Since call (fun g c => Times m.lineStart g c due)
        (fun g c => ∃ later, Times m.lineStart g c later) g calls) ∧
      ∀ now options p, ((g.after calls).poll now options).2 = some p →
        ∃ m ∈ (g.after calls).markers, m.lineStart = p.lineStart ∧
          ∃ due ≤ now, m.due = some due := by
  have ascends (calls : List Call) := ascends_after reached.ascends calls
  have begun (lineStart : Nat) : g.due? lineStart = none := by
    refine Option.eq_none_iff_forall_ne_some.mpr fun due hdue => ?_
    obtain ⟨m, hmarker, hset⟩ := Option.bind_eq_some_iff.mp hdue
    rw [idle m ((marker?_eq_some_iff reached.ascends).mp hmarker).1] at hset
    contradiction
  refine ⟨fun m hm => ?_, fun now options p hopened => ?_⟩
  · have hafter : (g.after calls).due? m.lineStart = m.due := by
      rw [due?, (marker?_eq_some_iff (ascends calls)).mpr ⟨hm, rfl⟩, Option.bind_some]
    rw [← hafter]
    let Runs (g : Gutter) : Prop := (g.due? m.lineStart).isSome = true
    have idle : ¬ Runs g := by simp [Runs, begun]
    refine ⟨iff_since_of_steps idle fun earlier c _ =>
      isSome_due?_call_iff (ascends earlier) m.lineStart c, fun due hdue => ?_⟩
    let Counts (g : Gutter) : Prop := g.due? m.lineStart = some due
    have timeless : ¬ Counts g := by simp [Counts, begun]
    exact since_of_steps timeless (fun earlier c _ => of_due?_call (ascends earlier)) hdue
  · obtain ⟨m, hm, hopens, rfl, -⟩ := (duePopup?_eq_some_iff (ascends calls)).mp hopened
    exact ⟨m, hm, rfl, hopens.due⟩

/-- The pointer comes to two markers, moves on the first and leaves the second, on which a move
starts nothing any more. The poll is early. -/
private theorem after_two_pointed_at :
    let doc : Document := .ofText "main" ['a', '\n', '\n', 'b']
    let first : Report := ⟨.error ⟨"main", ⟨0, 1⟩⟩ "first", .host 0⟩
    let last : Report := ⟨.error ⟨"main", ⟨3, 4⟩⟩ "last", .host 1⟩
    let s : Store := ⟨[⟨⟨0, 1⟩, .mark, first⟩, ⟨⟨3, 4⟩, .mark, last⟩], none, false, 1⟩
    (empty.rebuild s doc none).1.after [.arrive 0 0 .standard, .arrive 3 50 .standard,
        .move 0 100 .standard, .leave 3, .move 3 120 .standard, .poll 350 .standard] =
      ⟨[⟨0, .error, [first], some 400⟩, ⟨3, .error, [last], none⟩], none⟩ := by
  decide +kernel

/-- What opens is the pop-up of the first of two markers, at the time that counts from the move
there. -/
theorem popups_wait_for_pointer_of_two :
    let doc : Document := .ofText "main" ['a', '\n', '\n', 'b']
    let first : Report := ⟨.error ⟨"main", ⟨0, 1⟩⟩ "first", .host 0⟩
    let last : Report := ⟨.error ⟨"main", ⟨3, 4⟩⟩ "last", .host 1⟩
    let s : Store := ⟨[⟨⟨0, 1⟩, .mark, first⟩, ⟨⟨3, 4⟩, .mark, last⟩], none, false, 1⟩
    let g := (empty.rebuild s doc none).1
    let calls : List Call := [.arrive 0 0 .standard, .arrive 3 50 .standard, .move 0 100 .standard,
      .leave 3, .move 3 120 .standard, .poll 350 .standard]
    g.Reachable ∧ (∀ m ∈ g.markers, m.due = none) ∧
      Since call (Arms 0) (Disarms 0) g calls ∧ ¬ Since call (Arms 3) (Disarms 3) g calls ∧
      Since call (fun g c => Times 0 g c 400) (fun g c => ∃ later, Times 0 g c later) g calls ∧
      ((g.after calls).poll 399 .standard).2 = none ∧
      ((g.after calls).poll 400 .standard).2 = some ⟨0, [first]⟩ := by
  intro doc first last s g calls
  have reached : g.Reachable := .rebuild .empty s doc none
  have idle : ∀ m ∈ g.markers, m.due = none := by decide
  have hafter : g.after calls =
      ⟨[⟨0, .error, [first], some 400⟩, ⟨3, .error, [last], none⟩], none⟩ := after_two_pointed_at
  obtain ⟨htimes, hopened⟩ := popups_wait_for_pointer reached idle calls
  rw [hafter] at htimes hopened ⊢
  obtain ⟨hfirst, hcounts⟩ := htimes _ List.mem_cons_self
  obtain ⟨hlast, -⟩ := htimes _ (List.mem_cons_of_mem _ List.mem_cons_self)
  refine ⟨reached, idle, hfirst.mp rfl, mt hlast.mpr (by decide), hcounts 400 rfl, ?_, rfl⟩
  -- no time has come to its end before the one of the first marker
  refine Option.eq_none_iff_forall_ne_some.mpr fun p hp => ?_
  obtain ⟨m, hm, -, due, hpassed, hset⟩ := hopened 399 .standard p hp
  have hahead : IsAhead [⟨0, .error, [first], some 400⟩, ⟨3, .error, [last], none⟩] 399 := by
    simp [IsAhead]
  exact absurd (hahead m hm due hset) (Nat.not_lt.mpr hpassed)

end Marginalia.Gutter
