import Marginalia.Proofs.Edit.Landing

/-!
# Splices made one at a time

Splices in line can also be made one after another, the last first, so that each finds its extent
where it was asked for. A position is then carried by one splice at a time, and it is lost by
exactly the splices that lose it when all are made at once. It also comes to stand at the same
offset, with two exceptions. Where everything from an insertion up to the position is taken away
and nothing put in its place, the position has come back to the insertion when the insertion is
made, and stays before it; made at once, the insertion is behind it. And where an insertion is
made in front of a replacement, a position between the two moves after both in turn.
-/

namespace Marginalia

open Pass

namespace Splice

/-- Where a position comes to stand when the splice is made alone. -/
def turn (s : Splice) (pos : Nat) : Landing := landingFrom 0 0 pos [s]

/-- Where a position comes to stand when splices are made in turn, the last first. -/
def turns (side : Side) (splices : List Splice) (pos : Nat) : Nat :=
  splices.foldr (fun s pos => (s.turn pos).on side) pos

/-- Where a position comes to stand when splices are made in turn, the last first, unless one of
them loses it. -/
def turns? (side : Side) (splices : List Splice) (pos : Nat) : Option Nat :=
  splices.foldr (fun s pos => pos.bind fun pos => (s.turn pos).on? side) (some pos)

/-- Everything from `start` up to `pos` is taken away, and no replacement of it puts anything
in. -/
def ClosesUp (splices : List Splice) (start pos : Nat) : Prop :=
  (∀ i < pos, start ≤ i → ¬ Spare i splices) ∧
    ∀ s ∈ splices, start ≤ s.extent.start → s.extent.start < s.extent.stop →
      s.extent.stop ≤ pos → s.text = []

instance (splices : List Splice) (start pos : Nat) : Decidable (ClosesUp splices start pos) :=
  inferInstanceAs (Decidable ((∀ i < pos, start ≤ i → ¬ Spare i splices) ∧
    ∀ s ∈ splices, start ≤ s.extent.start → s.extent.start < s.extent.stop →
      s.extent.stop ≤ pos → s.text = []))

/-- The extent is that of an insertion in front of `pos` between which and `pos` nothing is
left. -/
def MeetsBehind (splices : List Splice) (pos : Nat) (e : Extent) : Prop :=
  e.start = e.stop ∧ e.start < pos ∧ ClosesUp splices e.start pos

instance (splices : List Splice) (pos : Nat) (e : Extent) :
    Decidable (MeetsBehind splices pos e) :=
  inferInstanceAs (Decidable (e.start = e.stop ∧ e.start < pos ∧ ClosesUp splices e.start pos))

/-- The number of characters that are inserted in front of `pos` with nothing left in between. -/
def heldBack (splices : List Splice) (pos : Nat) : Nat :=
  inserted (splices.filter fun s => MeetsBehind splices pos s.extent)

/-- At `pos` an insertion stands in front of a replacement that puts something in. -/
def Crowded (splices : List Splice) (pos : Nat) : Prop :=
  (∃ s ∈ splices, s.extent = .point pos ∧ s.text ≠ []) ∧
    ∃ s ∈ splices, s.extent.start = pos ∧ pos < s.extent.stop ∧ s.text ≠ []

instance (splices : List Splice) (pos : Nat) : Decidable (Crowded splices pos) :=
  inferInstanceAs (Decidable ((∃ s ∈ splices, s.extent = .point pos ∧ s.text ≠ []) ∧
    ∃ s ∈ splices, s.extent.start = pos ∧ pos < s.extent.stop ∧ s.text ≠ []))

section Alone

variable {s : Splice} {pos : Nat}

/-- In front of a splice a position stays. -/
theorem turn_of_lt (h : pos < s.extent.start) : s.turn pos = .fixed pos := by
  rw [turn, landingFrom_of_lt h, Nat.zero_add, Nat.sub_zero]

/-- Behind a splice a position keeps its distance from the end of what is put in. -/
theorem turn_of_past (hordered : s.extent.start ≤ s.extent.stop) (h : s.Before pos) :
    s.turn pos = .fixed (s.extent.start + s.text.length + (pos - s.extent.stop)) := by
  rw [turn, landingFrom_of_past hordered h, landingFrom_nil, Nat.zero_add, Nat.sub_zero]

/-- Elsewhere a position lands at the two ends of what is put in. -/
theorem turn_of_meets (hstart : ¬ pos < s.extent.start) (hmeets : ¬ s.Before pos) :
    s.turn pos = ⟨s.extent.start, s.extent.start + s.text.length, s.extent.start < pos⟩ := by
  rw [turn, landingFrom_of_meets hstart hmeets, Nat.zero_add, Nat.sub_zero]

/-- A splice does not carry a position across an offset that neither is in front of. -/
theorem le_turn_on {old : Nat} (hordered : s.extent.start ≤ s.extent.stop)
    (hold : old ≤ s.extent.start) (hpos : old ≤ pos) (side : Side) :
    old ≤ (s.turn pos).on side := by
  by_cases hlt : pos < s.extent.start
  · rw [turn_of_lt hlt, Landing.on_fixed]
    exact hpos
  by_cases hpast : s.Before pos
  · rw [turn_of_past hordered hpast, Landing.on_fixed]
    omega
  · rw [turn_of_meets hlt hpast]
    cases side with
    | before => exact hold
    | after => exact Nat.le_trans hold (Nat.le_add_right _ _)

/-- After inserted text, a position that a splice does not reach past keeps its distance from the
end of what is put in. -/
theorem turn_after_of_le (hordered : s.extent.start ≤ s.extent.stop) (hpos : s.extent.stop ≤ pos) :
    (s.turn pos).after = s.extent.start + s.text.length + (pos - s.extent.stop) := by
  by_cases hpast : s.Before pos
  · rw [turn_of_past hordered hpast, Landing.after_fixed]
  · rw [turn_of_meets (by omega) hpast]
    dsimp only
    omega

/-- A splice brings a position behind it back to an offset in front of it exactly if the position
is at its end and it puts nothing in there. -/
theorem turn_before_eq_iff {old : Nat} (hordered : s.extent.start ≤ s.extent.stop)
    (hold : old ≤ s.extent.start) (hpos : s.extent.stop ≤ pos) :
    (s.turn pos).before = old ↔ s.extent.start = old ∧ pos = s.extent.stop ∧
      (s.extent.start < s.extent.stop → s.text = []) := by
  rw [← List.length_eq_zero_iff]
  by_cases hpast : s.Before pos
  · rw [turn_of_past hordered hpast, Landing.before_fixed]
    omega
  · rw [turn_of_meets (by omega) hpast]
    dsimp only
    omega

/-- A splice that is made alone loses the positions strictly inside its extent. -/
theorem turn_lost_iff (hordered : s.extent.start ≤ s.extent.stop) :
    (s.turn pos).lost = true ↔ s.extent.start < pos ∧ pos < s.extent.stop := by
  by_cases hlt : pos < s.extent.start
  · rw [turn_of_lt hlt]
    simp only [Landing.lost_fixed, Bool.false_eq_true, false_iff]
    omega
  by_cases hpast : s.Before pos
  · rw [turn_of_past hordered hpast]
    simp only [Landing.lost_fixed, Bool.false_eq_true, false_iff]
    omega
  · rw [turn_of_meets hlt hpast, decide_eq_true_iff]
    omega

/-- Before inserted text, a position in front of a splice or at its start stays. -/
theorem turn_before_of_le (hordered : s.extent.start ≤ s.extent.stop)
    (hpos : pos ≤ s.extent.start) : (s.turn pos).before = pos := by
  by_cases hlt : pos < s.extent.start
  · rw [turn_of_lt hlt, Landing.before_fixed]
  · rw [turn_of_meets hlt (by omega)]
    exact Nat.le_antisymm (Nat.le_of_not_lt hlt) hpos

end Alone

section InTurn

variable {old new length pos : Nat} {s : Splice} {rest splices : List Splice} {side : Side}

@[simp]
theorem turns_nil : turns side [] pos = pos := rfl

/-- The first of splices that are made in turn is made last. -/
theorem turns_cons : turns side (s :: rest) pos = (s.turn (turns side rest pos)).on side := rfl

/-- In front of all splices a position stays. -/
theorem turns_of_lt (h : ∀ s ∈ splices, pos < s.extent.start) : turns side splices pos = pos := by
  induction splices with
  | nil => rfl
  | cons s rest ih =>
    obtain ⟨hs, hrest⟩ := List.forall_mem_cons.mp h
    rw [turns_cons, ih hrest, turn_of_lt hs, Landing.on_fixed]

/-- Before inserted text, a position that no splice starts in front of stays. -/
theorem InLine.turns_before_of_le (h : InLine old length splices) (hpos : pos ≤ old) :
    turns .before splices pos = pos := by
  induction splices generalizing old with
  | nil => rfl
  | cons s rest ih =>
    obtain ⟨hstart, hordered, -⟩ := h.head
    rw [turns_cons, ih h.tail (by omega)]
    exact turn_before_of_le hordered (by omega)

/-- What is not behind the end of the first of splices in line is not behind the start of any
other. -/
theorem InLine.le_start_of_le_stop (h : InLine old length (s :: rest))
    (hpos : pos ≤ s.extent.stop) : ∀ next ∈ rest, pos ≤ next.extent.start :=
  fun next hnext => Nat.le_trans hpos (h.tail.ahead next hnext)

/-- Inside what the first of splices in line replaces, the others do not move a position. -/
theorem InLine.turns_of_lt_stop (h : InLine old length (s :: rest)) (hpos : pos < s.extent.stop) :
    turns side rest pos = pos :=
  turns_of_lt fun next hnext => Nat.lt_of_lt_of_le hpos (h.tail.ahead next hnext)

/-- Splices in line carry no position across an offset that they are all behind. -/
theorem InLine.le_turns (h : InLine old length splices) (hpos : old ≤ pos) (side : Side) :
    old ≤ turns side splices pos := by
  induction splices generalizing old with
  | nil => exact hpos
  | cons s rest ih =>
    obtain ⟨hstart, hordered, -⟩ := h.head
    rw [turns_cons]
    refine le_turn_on hordered hstart ?_ side
    by_cases hstop : s.extent.stop ≤ pos
    · exact Nat.le_trans (by omega) (ih h.tail hstop)
    · rw [h.turns_of_lt_stop (by omega)]
      exact hpos

/-- The splice that is made last loses a position that the others keep exactly if the position
was strictly inside its extent from the start. -/
theorem InLine.turn_turns_lost_iff (h : InLine old length (s :: rest)) :
    (s.turn (turns side rest pos)).lost = true ↔ s.extent.start < pos ∧ pos < s.extent.stop := by
  obtain ⟨-, hordered, -⟩ := h.head
  rw [turn_lost_iff hordered]
  by_cases hstop : pos < s.extent.stop
  · rw [h.turns_of_lt_stop hstop]
  · have hbehind := h.tail.le_turns (Nat.le_of_not_lt hstop) side
    omega

/-- Made in turn, splices lose exactly the positions strictly inside an extent. -/
theorem InLine.turns?_eq (h : InLine old length splices) (side : Side) (pos : Nat) :
    turns? side splices pos = if ∃ s ∈ splices, s.extent.start < pos ∧ pos < s.extent.stop
      then none else some (turns side splices pos) := by
  induction splices generalizing old with
  | nil => simp [turns?]
  | cons s rest ih =>
    have hcons : turns? side (s :: rest) pos =
      (turns? side rest pos).bind fun pos => (s.turn pos).on? side := rfl
    rw [hcons, ih h.tail]
    simp only [List.mem_cons, exists_eq_or_imp]
    by_cases hrest : ∃ s ∈ rest, s.extent.start < pos ∧ pos < s.extent.stop
    · rw [if_pos hrest, if_pos (Or.inr hrest), Option.bind_none]
    · rw [if_neg hrest, Option.bind_some, Landing.on?]
      simp only [h.turn_turns_lost_iff, hrest, or_false]
      rfl

/-- At once and in turn splices lose the same positions; where they come to stand `n` apart,
they do so unless they are lost. -/
theorem InLine.landingFrom_on?_eq (h : InLine old length splices) {n : Nat}
    (hahead : (landingFrom old new pos splices).on side = turns side splices pos + n) :
    (landingFrom old new pos splices).on? side = (turns? side splices pos).map (· + n) := by
  have hlost : (landingFrom old new pos splices).lost = true ↔ _ := landingFrom_lost_iff h
  rw [h.turns?_eq, Landing.on?, hahead]
  by_cases hinside : ∃ s ∈ splices, s.extent.start < pos ∧ pos < s.extent.stop
  · rw [if_pos (hlost.mpr hinside), if_pos hinside, Option.map_none]
  · rw [if_neg (mt hlost.mp hinside), if_neg hinside, Option.map_some]

/-- At once and in turn splices keep the same positions. -/
theorem InLine.isSome_landingFrom_on? (h : InLine old length splices) (new : Nat) :
    ((landingFrom old new pos splices).on? side).isSome = (turns? side splices pos).isSome := by
  rw [h.turns?_eq, Landing.on?, Bool.eq_iff_iff]
  have hlost : (landingFrom old new pos splices).lost = true ↔ _ := landingFrom_lost_iff h
  by_cases hinside : ∃ s ∈ splices, s.extent.start < pos ∧ pos < s.extent.stop
  · rw [if_pos (hlost.mpr hinside), if_pos hinside]
  · rw [if_neg (mt hlost.mp hinside), if_neg hinside]
    simp

/-- Nothing has to go for a position to be where it is. -/
theorem closesUp_self (splices : List Splice) (pos : Nat) : ClosesUp splices pos pos :=
  ⟨fun i hi hle => absurd hi (Nat.not_lt_of_le hle), fun s _ hstart hreplaces hstop => by omega⟩

/-- What closes up from an offset on closes up from any later one. -/
theorem ClosesUp.of_le {start later : Nat} (h : ClosesUp splices start pos) (hle : start ≤ later) :
    ClosesUp splices later pos :=
  ⟨fun i hi hlater => h.1 i hi (Nat.le_trans hle hlater),
    fun s hs hlater => h.2 s hs (Nat.le_trans hle hlater)⟩

/-- A splice in front of a stretch has no part in whether it closes up. -/
theorem closesUp_cons_iff {start : Nat} (hstop : s.extent.stop ≤ start) :
    ClosesUp (s :: rest) start pos ↔ ClosesUp rest start pos := by
  have hspare : ∀ i, start ≤ i → (Spare i (s :: rest) ↔ Spare i rest) := by
    intro i hi
    rw [Spare, List.forall_mem_cons, and_iff_right (by omega)]
    rfl
  constructor
  · rintro ⟨hgone, hempty⟩
    refine ⟨fun i hi hstart spared => hgone i hi hstart ((hspare i hstart).mpr spared), ?_⟩
    exact (List.forall_mem_cons.mp hempty).2
  · rintro ⟨hgone, hempty⟩
    refine ⟨fun i hi hstart spared => hgone i hi hstart ((hspare i hstart).mp spared), ?_⟩
    exact List.forall_mem_cons.mpr ⟨by omega, hempty⟩

/-- A stretch in front of splices in line does not close up. -/
theorem InLine.not_closesUp (h : InLine old length (s :: rest)) (hgap : old < s.extent.start)
    (hpos : old < pos) : ¬ ClosesUp (s :: rest) old pos := by
  obtain ⟨-, hordered, -⟩ := h.head
  refine fun closes => closes.1 old hpos (Nat.le_refl _) ?_
  refine List.forall_mem_cons.mpr ⟨by omega, fun next hnext => ?_⟩
  have hahead := h.tail.ahead next hnext
  omega

/-- A stretch with a splice at its front closes up if the splice puts nothing in the place of what
it takes away and the stretch behind it closes up. -/
theorem InLine.closesUp_cons_of_stop_le (h : InLine old length (s :: rest))
    (hstop : s.extent.stop ≤ pos) :
    ClosesUp (s :: rest) old pos ↔ s.extent.start = old ∧ ClosesUp rest s.extent.stop pos ∧
      (s.extent.start < s.extent.stop → s.text = []) := by
  obtain ⟨hstart, hordered, -⟩ := h.head
  constructor
  · intro closes
    have hfront : s.extent.start ≤ old :=
      Nat.le_of_not_lt fun hgap => h.not_closesUp hgap (by omega) closes
    have hbehind := closes.of_le (Nat.le_trans hstart hordered)
    exact ⟨Nat.le_antisymm hfront hstart, (closesUp_cons_iff (Nat.le_refl _)).mp hbehind,
      fun hreplaces => closes.2 s List.mem_cons_self hstart hreplaces hstop⟩
  · rintro ⟨rfl, closes, hempty⟩
    have hbehind := (closesUp_cons_iff (s := s) (Nat.le_refl _)).mpr closes
    refine ⟨fun i hi hle => ?_, ?_⟩
    · by_cases hinside : i < s.extent.stop
      · exact fun spared => spared s List.mem_cons_self ⟨hle, hinside⟩
      · exact hbehind.1 i hi (Nat.le_of_not_lt hinside)
    · refine List.forall_mem_cons.mpr ⟨fun _ hreplaces _ => hempty hreplaces, ?_⟩
      exact fun next hnext _ => closes.2 next hnext (h.tail.ahead next hnext)

/-- Made in turn, splices bring a position back to an offset that they are all behind exactly if
everything in between closes up. -/
theorem InLine.turns_before_eq_iff (h : InLine old length splices) (hpos : old ≤ pos) :
    turns .before splices pos = old ↔ ClosesUp splices old pos := by
  induction splices generalizing old with
  | nil =>
    refine ⟨fun heq => ?_, fun closes => ?_⟩
    · rw [turns_nil] at heq
      exact heq ▸ closesUp_self _ _
    · refine Nat.le_antisymm (Nat.le_of_not_lt fun hlt => ?_) hpos
      exact closes.1 old hlt (Nat.le_refl _) (List.forall_mem_nil _)
  | cons s rest ih =>
    obtain ⟨hstart, hordered, -⟩ := h.head
    rw [turns_cons, Landing.on]
    by_cases hlt : pos < s.extent.start
    · rw [h.turns_of_lt_stop (by omega), turn_of_lt hlt, Landing.before_fixed]
      refine ⟨fun heq => heq ▸ closesUp_self _ _, fun closes => ?_⟩
      refine Nat.le_antisymm (Nat.le_of_not_lt fun hold => ?_) hpos
      exact h.not_closesUp (by omega) hold closes
    by_cases hstop : pos < s.extent.stop
    · -- The first splice takes away what is in front of the position, and no splice ends by it.
      rw [h.turns_of_lt_stop hstop, turn_of_meets hlt (by omega)]
      dsimp only
      constructor
      · rintro rfl
        refine ⟨fun i hi hle spared => spared s List.mem_cons_self (by omega), ?_⟩
        refine List.forall_mem_cons.mpr ⟨by omega, fun next hnext => ?_⟩
        have hahead := h.tail.ahead next hnext
        omega
      · intro closes
        refine Nat.le_antisymm (Nat.le_of_not_lt fun hgap => ?_) hstart
        exact h.not_closesUp hgap (by omega) closes
    · have hbehind := h.tail.le_turns (Nat.le_of_not_lt hstop) .before
      rw [turn_before_eq_iff hordered hstart hbehind, ih h.tail (Nat.le_of_not_lt hstop),
        h.closesUp_cons_of_stop_le (Nat.le_of_not_lt hstop)]

/-- The splices in front of a stretch do not hold anything back in it. -/
theorem InLine.heldBack_cons (h : InLine old length (s :: rest)) :
    heldBack (s :: rest) pos =
      (if MeetsBehind (s :: rest) pos s.extent then s.text.length else 0) + heldBack rest pos := by
  rw [heldBack, inserted_filter_cons, heldBack]
  refine congrArg _ (congrArg _ (List.filter_congr fun next hnext => ?_))
  have hmeets : MeetsBehind (s :: rest) pos next.extent ↔ MeetsBehind rest pos next.extent := by
    rw [MeetsBehind, MeetsBehind, closesUp_cons_iff (h.tail.ahead next hnext)]
  simp only [hmeets]

/-- Where no splice starts in front of a position, none is held back. -/
theorem heldBack_eq_zero (h : ∀ s ∈ splices, pos ≤ s.extent.start) : heldBack splices pos = 0 := by
  have hnone : (splices.filter fun s => MeetsBehind splices pos s.extent) = [] := by
    refine List.filter_eq_nil_iff.mpr fun s hs hmeets => ?_
    exact Nat.not_lt_of_le (h s hs) (of_decide_eq_true hmeets).2.1
  rw [heldBack, hnone]
  rfl

/-- The first of splices in line is held back exactly if it is an insertion to which the others
bring the position back. -/
theorem InLine.meetsBehind_iff (h : InLine old length (s :: rest)) (hstop : s.extent.stop ≤ pos) :
    MeetsBehind (s :: rest) pos s.extent ↔ s.extent.start = s.extent.stop ∧
      s.extent.start < pos ∧ turns .before rest pos = s.extent.stop := by
  rw [MeetsBehind, h.tail.turns_before_eq_iff hstop]
  refine and_congr_right fun hpoint => and_congr_right fun _ => ?_
  rw [closesUp_cons_iff (Nat.le_of_eq hpoint.symm), hpoint]

/-- What is crowded stays crowded with further splices. -/
theorem Crowded.of_subset {more : List Splice} (h : Crowded splices pos) (hmore : splices ⊆ more) :
    Crowded more pos := by
  obtain ⟨⟨insertion, hinsertion, hinserts⟩, replacement, hreplacement, hreplaces⟩ := h
  exact ⟨⟨insertion, hmore hinsertion, hinserts⟩, replacement, hmore hreplacement, hreplaces⟩

/-- After inserted text, a position stays if the splices at it only take away. -/
theorem turns_after_of_bare (h : ∀ s ∈ splices, pos < s.extent.start ∨
    s.extent.start = pos ∧ pos < s.extent.stop ∧ s.text = []) :
    turns .after splices pos = pos := by
  induction splices with
  | nil => rfl
  | cons s rest ih =>
    obtain ⟨hs, hrest⟩ := List.forall_mem_cons.mp h
    rw [turns_cons, ih hrest, Landing.on]
    obtain hlt | ⟨hstart, hstop, htext⟩ := hs
    · rw [turn_of_lt hlt, Landing.after_fixed]
    · rw [turn_of_meets (by omega) (by omega), htext]
      exact hstart

/-- Behind an insertion at a position that is not crowded, no splice moves the position. -/
theorem InLine.turns_after_of_point (h : InLine old length (s :: rest))
    (hpoint : s.extent = .point pos) (free : ¬ Crowded (s :: rest) pos) :
    turns .after rest pos = pos := by
  have htext : s.text ≠ [] := by
    have hbusy := h.busy s List.mem_cons_self
    rw [isIdle, hpoint, Extent.point, Extent.isEmpty, beq_self_eq_true, Bool.true_and,
      List.isEmpty_eq_false_iff] at hbusy
    exact hbusy
  refine turns_after_of_bare fun next hnext => ?_
  have hahead := h.tail.ahead next hnext
  have hordered := h.tail.ordered next hnext
  have hfresh := ((List.pairwise_cons.mp h.apart).1 next hnext).2
  rw [hpoint] at hahead hfresh
  rcases Nat.lt_or_ge pos next.extent.start with hlt | hstart
  · exact Or.inl hlt
  · have heq : next.extent.start = pos := Nat.le_antisymm hstart hahead
    have hstop : pos < next.extent.stop := by
      refine Nat.lt_of_not_le fun hle => hfresh (Extent.eq_of_start_of_stop heq.symm ?_)
      exact Nat.le_antisymm (heq ▸ hordered) hle
    refine Or.inr ⟨heq, hstop, Classical.byContradiction fun hputs => free ?_⟩
    exact ⟨⟨s, List.mem_cons_self, hpoint, htext⟩,
      next, List.mem_cons_of_mem _ hnext, heq, hstop, hputs⟩

/-- Before inserted text, splices that are made at once carry a position as they do in turn, and
over the insertions that are held back. -/
theorem InLine.landingFrom_before_eq (h : InLine old length splices) (new : Nat)
    (hpos : old ≤ pos) :
    (landingFrom old new pos splices).before =
      new + (turns .before splices pos - old) + heldBack splices pos := by
  induction splices generalizing old new with
  | nil => rfl
  | cons s rest ih =>
    obtain ⟨hstart, hordered, -⟩ := h.head
    rw [turns_cons, Landing.on]
    by_cases hlt : pos < s.extent.start
    · have hnone : heldBack (s :: rest) pos = 0 := by
        have hbehind := h.le_start_of_le_stop (Nat.le_trans (Nat.le_of_lt hlt) hordered)
        exact heldBack_eq_zero (List.forall_mem_cons.mpr ⟨Nat.le_of_lt hlt, hbehind⟩)
      rw [landingFrom_of_lt hlt, h.turns_of_lt_stop (by omega), turn_of_lt hlt, hnone]
      rfl
    by_cases hpast : s.Before pos
    · have hstop : s.extent.stop ≤ pos := by omega
      have hbehind := h.tail.le_turns hstop .before
      have hmeets := h.meetsBehind_iff hstop
      rw [landingFrom_of_past hordered hpast, ih h.tail _ hstop, h.heldBack_cons]
      by_cases hback : MeetsBehind (s :: rest) pos s.extent
      · -- In turn the position is back at the insertion and stays; at once it is carried along.
        obtain ⟨hpoint, -, hreturn⟩ := hmeets.mp hback
        rw [if_pos hback, turn_before_of_le hordered (by omega)]
        omega
      · have hreturn := mt hmeets.mpr hback
        have hpast' : s.Before (turns .before rest pos) := by omega
        rw [if_neg hback, turn_of_past hordered hpast', Landing.before_fixed]
        omega
    · have hrest : heldBack rest pos = 0 := heldBack_eq_zero (h.le_start_of_le_stop (by omega))
      have hback : ¬ MeetsBehind (s :: rest) pos s.extent := fun hmeets => by
        have hbehind := And.intro hmeets.1 hmeets.2.1
        omega
      rw [landingFrom_of_meets hlt hpast, h.tail.turns_before_of_le (by omega),
        turn_of_meets hlt hpast, h.heldBack_cons, if_neg hback, hrest]
      rfl

/-- After inserted text, splices that are made at once carry a position as they do in turn, unless
an insertion stands in front of a replacement at the position. -/
theorem InLine.landingFrom_after_eq (h : InLine old length splices) (new : Nat)
    (hpos : old ≤ pos) (free : ¬ Crowded splices pos) :
    (landingFrom old new pos splices).after = new + (turns .after splices pos - old) := by
  induction splices generalizing old new with
  | nil => rfl
  | cons s rest ih =>
    obtain ⟨hstart, hordered, -⟩ := h.head
    rw [turns_cons, Landing.on]
    by_cases hlt : pos < s.extent.start
    · rw [landingFrom_of_lt hlt, h.turns_of_lt_stop (by omega), turn_of_lt hlt]
      rfl
    by_cases hpast : s.Before pos
    · have hstop : s.extent.stop ≤ pos := by omega
      have hbehind := h.tail.le_turns hstop .after
      have hrest : ¬ Crowded rest pos := fun crowded =>
        free (crowded.of_subset (List.subset_cons_self s rest))
      rw [landingFrom_of_past hordered hpast, ih h.tail _ hstop hrest,
        turn_after_of_le hordered hbehind]
      omega
    by_cases hstop : pos < s.extent.stop
    · rw [landingFrom_of_meets hlt hpast, h.turns_of_lt_stop hstop, turn_of_meets hlt hpast]
      dsimp only
      omega
    · -- An insertion at the position: only a replacement behind it could still move the position.
      have hat : s.extent.start = pos ∧ s.extent.stop = pos := by omega
      have hpoint : s.extent = .point pos := Extent.eq_of_start_of_stop hat.1 hat.2
      rw [landingFrom_of_meets hlt hpast, h.turns_after_of_point hpoint free,
        turn_of_meets hlt hpast]
      dsimp only
      omega

end InTurn

end Splice

end Marginalia
