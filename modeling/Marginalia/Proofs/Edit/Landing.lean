import Marginalia.Proofs.Edit.Layout

/-!
# Where positions land

A pass maps positions in one walk along its splices. For splices in line the walk keeps the order
of positions on either side, stays inside the text after the pass, and loses exactly the
positions strictly inside an extent. A character that no splice takes away is shifted by what
the splices up to it put in and take away, and the position behind it lands directly behind it.
Positions past the end count as the end, so the lemmas on single characters ask for an index
inside the text.
-/

namespace Marginalia

namespace Splice

/-- No splice takes the character at index `i` away. -/
def Spare (i : Nat) (splices : List Splice) : Prop :=
  ∀ s ∈ splices, ¬ (s.extent.start ≤ i ∧ i < s.extent.stop)

instance (i : Nat) (splices : List Splice) : Decidable (Spare i splices) :=
  inferInstanceAs (Decidable (∀ s ∈ splices, ¬ (s.extent.start ≤ i ∧ i < s.extent.stop)))

/-- The splice is behind the position: all of it, or its end if it takes characters away. -/
@[reducible] def Before (s : Splice) (pos : Nat) : Prop :=
  s.extent.stop < pos ∨ (pos = s.extent.stop ∧ s.extent.start < s.extent.stop)

/-- The splices that start at or before index `i`. -/
def upTo (i : Nat) (splices : List Splice) : List Splice :=
  splices.filter (·.extent.start ≤ i)

/-- What is spared by splices is spared by those behind the first. -/
theorem Spare.tail {i : Nat} {s : Splice} {rest : List Splice} (h : Spare i (s :: rest)) :
    Spare i rest := fun next hnext => h next (List.mem_cons_of_mem _ hnext)

/-- A spared character that is not in front of a splice is behind it. -/
theorem Spare.stop_le {i : Nat} {s : Splice} {rest : List Splice} (h : Spare i (s :: rest))
    (hstart : s.extent.start ≤ i) : s.extent.stop ≤ i := by
  have hspared := h s List.mem_cons_self
  omega

/-- In front of the first of splices in line there are none to count. -/
theorem upTo_eq_nil {old length i : Nat} {splices : List Splice}
    (h : InLine old length splices) (hi : i < old) : upTo i splices = [] := by
  refine List.filter_eq_nil_iff.mpr fun s hs => ?_
  have hahead := h.ahead s hs
  simp only [decide_eq_true_eq]
  omega

/-- Before the first splice there are none to count. -/
theorem upTo_cons_of_lt {old length i : Nat} {s : Splice} {rest : List Splice}
    (h : InLine old length (s :: rest)) (hi : i < s.extent.start) : upTo i (s :: rest) = [] := by
  obtain ⟨-, hstop, -⟩ := h.head
  have hrest : upTo i rest = [] := upTo_eq_nil h.tail (by omega)
  rw [upTo, List.filter_cons_of_neg (by simpa using hi)]
  exact hrest

/-- From its start on the first splice counts. -/
theorem upTo_cons_of_le {i : Nat} {s : Splice} {rest : List Splice}
    (hi : s.extent.start ≤ i) : upTo i (s :: rest) = s :: upTo i rest :=
  List.filter_cons_of_pos (by simpa using hi)

/-- Behind a spared character at which one insertion was made there is no other splice. -/
theorem InLine.lt_start {old length i : Nat} {s : Splice} {rest : List Splice}
    (h : InLine old length (s :: rest)) (spared : Spare i (s :: rest))
    (hstart : s.extent.start = i) : ∀ next ∈ rest, i < next.extent.start := by
  intro next hnext
  obtain ⟨-, hstop, -⟩ := h.head
  have hstopLe := spared.stop_le (Nat.le_of_eq hstart)
  have hspared := spared next (List.mem_cons_of_mem _ hnext)
  have hordered := h.ordered next (List.mem_cons_of_mem _ hnext)
  obtain ⟨hbehind, hfresh⟩ := (List.pairwise_cons.mp h.apart).1 next hnext
  -- Otherwise both splices would have the point at `i` as their extent.
  refine Nat.lt_of_not_le fun hnot => hfresh (Extent.eq_of_start_of_stop ?_ ?_) <;> omega

end Splice

namespace Landing

@[simp]
theorem before_fixed (offset : Nat) : (fixed offset).before = offset := rfl

@[simp]
theorem after_fixed (offset : Nat) : (fixed offset).after = offset := rfl

@[simp]
theorem lost_fixed (offset : Nat) : (fixed offset).lost = false := rfl

@[simp]
theorem on_fixed (offset : Nat) (side : Side) : (fixed offset).on side = offset := by
  cases side <;> rfl

/-- On either side a landing is no further than after inserted text. -/
theorem on_le {l : Landing} (h : l.before ≤ l.after) (side : Side) : l.on side ≤ l.after := by
  cases side with
  | before => exact h
  | after => exact Nat.le_refl _

/-- On either side a landing is at least as far as before inserted text. -/
theorem le_on {l : Landing} (h : l.before ≤ l.after) (side : Side) : l.before ≤ l.on side := by
  cases side with
  | before => exact Nat.le_refl _
  | after => exact h

end Landing

namespace Pass

open Splice

section Walk

variable {old new pos : Nat} {s : Splice} {rest splices : List Splice}

@[simp]
theorem landingFrom_nil : landingFrom old new pos [] = .fixed (new + (pos - old)) := rfl

/-- In front of the next splice a position keeps its distance. -/
theorem landingFrom_of_lt (h : pos < s.extent.start) :
    landingFrom old new pos (s :: rest) = .fixed (new + (pos - old)) := by
  rw [landingFrom, if_pos h]

/-- Behind the next splice, or at the end of what it takes away, the walk goes on. -/
theorem landingFrom_of_past (hordered : s.extent.start ≤ s.extent.stop)
    (h : s.Before pos) :
    landingFrom old new pos (s :: rest) = landingFrom s.extent.stop
      (new + (s.extent.start - old) + s.text.length) pos rest := by
  rw [landingFrom, if_neg (by omega), if_pos (by simpa using h)]

/-- Elsewhere a position lands at the two ends of what the next splice puts in. -/
theorem landingFrom_of_meets (hstart : ¬ pos < s.extent.start) (hmeets : ¬ s.Before pos) :
    landingFrom old new pos (s :: rest) =
      ⟨new + (s.extent.start - old), new + (s.extent.start - old) + s.text.length,
        s.extent.start < pos⟩ := by
  rw [landingFrom, if_neg hstart, if_neg (by simpa using hmeets)]

/-- The walk never falls behind where it began. -/
theorem le_landingFrom (old new pos : Nat) (splices : List Splice) (side : Side) :
    new ≤ (landingFrom old new pos splices).on side := by
  induction splices generalizing old new with
  | nil => simp
  | cons s rest ih =>
    rw [landingFrom]
    split
    case isTrue => simp
    case isFalse =>
      split
      case isTrue =>
        have hrest := ih s.extent.stop (new + (s.extent.start - old) + s.text.length)
        omega
      case isFalse =>
        refine Nat.le_trans ?_ (Landing.le_on (Nat.le_add_right _ _) side)
        dsimp only
        omega

/-- The side before text comes before the side after it. -/
theorem landingFrom_before_le_after (old new pos : Nat) (splices : List Splice) :
    (landingFrom old new pos splices).before ≤ (landingFrom old new pos splices).after := by
  induction splices generalizing old new with
  | nil => exact Nat.le_refl _
  | cons s rest ih =>
    rw [landingFrom]
    split
    case isTrue => exact Nat.le_refl _
    case isFalse =>
      split
      case isTrue => exact ih _ _
      case isFalse => exact Nat.le_add_right _ _

/-- A position that is not behind the next splice lands no later than the end of what the splice
puts in. -/
theorem landingFrom_on_le (old new : Nat) (rest : List Splice) (h : ¬ s.Before pos)
    (side : Side) : (landingFrom old new pos (s :: rest)).on side ≤
      new + (s.extent.start - old) + s.text.length := by
  by_cases hpos : pos < s.extent.start
  · rw [landingFrom_of_lt hpos, Landing.on_fixed]
    omega
  · rw [landingFrom_of_meets hpos h]
    exact Landing.on_le (Nat.le_add_right _ _) side

/-- On each side the walk keeps the order of positions. -/
theorem landingFrom_mono (hordered : ∀ s ∈ splices, s.extent.start ≤ s.extent.stop)
    {pos later : Nat} (h : pos ≤ later) (side : Side) :
    (landingFrom old new pos splices).on side ≤ (landingFrom old new later splices).on side := by
  induction splices generalizing old new with
  | nil =>
    simp only [landingFrom_nil, Landing.on_fixed]
    omega
  | cons s rest ih =>
    obtain ⟨hs, hrest⟩ := List.forall_mem_cons.mp hordered
    have hbehind := le_landingFrom s.extent.stop (new + (s.extent.start - old) + s.text.length)
      later rest side
    by_cases hlater : later < s.extent.start
    · have hpos : pos < s.extent.start := by omega
      rw [landingFrom_of_lt hlater, landingFrom_of_lt hpos, Landing.on_fixed, Landing.on_fixed]
      omega
    by_cases hpast : s.Before later
    · rw [landingFrom_of_past hs hpast]
      by_cases hpast' : s.Before pos
      · rw [landingFrom_of_past hs hpast']
        exact ih hrest
      · exact Nat.le_trans (landingFrom_on_le old new rest hpast' side) hbehind
    · rw [landingFrom_of_meets hlater hpast]
      by_cases hpos : pos < s.extent.start
      · rw [landingFrom_of_lt hpos, Landing.on_fixed]
        refine Nat.le_trans ?_ (Landing.le_on (Nat.le_add_right _ _) side)
        dsimp only
        omega
      · rw [landingFrom_of_meets hpos (by omega)]
        cases side <;> exact Nat.le_refl _

/-- Exactly the positions strictly inside an extent are lost. -/
theorem landingFrom_lost_iff {length : Nat} (h : InLine old length splices) :
    (landingFrom old new pos splices).lost = true ↔
      ∃ s ∈ splices, s.extent.start < pos ∧ pos < s.extent.stop := by
  induction splices generalizing old new with
  | nil => simp
  | cons s rest ih =>
    obtain ⟨-, hordered, -⟩ := h.head
    have hbehind := h.tail.ahead
    simp only [List.mem_cons, exists_eq_or_imp]
    by_cases hpos : pos < s.extent.start
    · rw [landingFrom_of_lt hpos]
      simp only [Landing.lost_fixed, Bool.false_eq_true, false_iff, not_or, not_exists, not_and]
      exact ⟨by omega, fun next hnext => by have := hbehind next hnext; omega⟩
    by_cases hpast : s.Before pos
    · rw [landingFrom_of_past hordered hpast, ih h.tail, or_iff_right (by omega)]
    · rw [landingFrom_of_meets hpos hpast, decide_eq_true_iff]
      refine ⟨fun hlost => Or.inl (by omega), ?_⟩
      rintro (hinside | ⟨next, hnext, hinside⟩)
      · exact hinside.1
      · have := hbehind next hnext
        omega

/-- No position lands behind the end of the text after the pass. -/
theorem landingFrom_on_add_removed_le (new : Nat) {length : Nat} (h : InLine old length splices)
    (hold : old ≤ length) (hpos : pos ≤ length) (side : Side) :
    (landingFrom old new pos splices).on side + removed splices ≤
      new + (length - old) + inserted splices := by
  induction splices generalizing old new with
  | nil =>
    simp only [landingFrom_nil, Landing.on_fixed, removed, inserted]
    omega
  | cons s rest ih =>
    obtain ⟨hstart, hordered, hfits⟩ := h.head
    have hremoved := h.tail.old_add_removed_le hfits
    simp only [removed, inserted, removedLength]
    by_cases hpast : s.Before pos
    · rw [landingFrom_of_past hordered hpast]
      have hrest := ih (new + (s.extent.start - old) + s.text.length) h.tail hfits
      omega
    · have hle := landingFrom_on_le old new rest hpast side
      omega

/-- A spared character behind the next splice lands where the rest of the walk puts it, also if
the splice is an insertion at the character. -/
theorem landingFrom_after_of_spare {length i : Nat} (h : InLine old length (s :: rest))
    (spared : Spare i (s :: rest)) (hstart : s.extent.start ≤ i) :
    (landingFrom old new i (s :: rest)).after = (landingFrom s.extent.stop
      (new + (s.extent.start - old) + s.text.length) i rest).after := by
  obtain ⟨-, hordered, -⟩ := h.head
  have hstop := spared.stop_le hstart
  by_cases hpast : s.Before i
  · rw [landingFrom_of_past hordered hpast]
  · have hpoint : s.extent.start = i := by omega
    have hahead := h.lt_start spared hpoint
    rw [landingFrom_of_meets (Nat.not_lt_of_le hstart) hpast]
    cases rest with
    | nil =>
      simp only [landingFrom_nil, Landing.after_fixed]
      omega
    | cons next rest =>
      rw [landingFrom_of_lt (hahead next List.mem_cons_self), Landing.after_fixed]
      dsimp only
      omega

/-- A spared character is shifted by the splices up to it. -/
theorem landingFrom_after_add_removed (new : Nat) {length i : Nat} (h : InLine old length splices)
    (spared : Spare i splices) (hi : old ≤ i) :
    (landingFrom old new i splices).after + removed (upTo i splices) =
      new + (i - old) + inserted (upTo i splices) := by
  induction splices generalizing old new with
  | nil => rfl
  | cons s rest ih =>
    by_cases hstart : s.extent.start ≤ i
    · obtain ⟨hold, hordered, -⟩ := h.head
      have hstop := spared.stop_le hstart
      have hrest := ih (new + (s.extent.start - old) + s.text.length) h.tail spared.tail hstop
      rw [landingFrom_after_of_spare h spared hstart, upTo_cons_of_le hstart]
      simp only [removed, inserted, removedLength]
      omega
    · have hlt : i < s.extent.start := by omega
      rw [landingFrom_of_lt hlt, upTo_cons_of_lt h hlt]
      rfl

/-- The position behind a spared character lands directly behind it. -/
theorem landingFrom_before_succ (new : Nat) {length i : Nat} (h : InLine old length splices)
    (spared : Spare i splices) (hi : old ≤ i) :
    (landingFrom old new (i + 1) splices).before = (landingFrom old new i splices).after + 1 := by
  induction splices generalizing old new with
  | nil =>
    simp only [landingFrom_nil, Landing.before_fixed, Landing.after_fixed]
    omega
  | cons s rest ih =>
    obtain ⟨hold, hordered, -⟩ := h.head
    by_cases hstart : s.extent.start ≤ i
    · have hstop := spared.stop_le hstart
      rw [landingFrom_after_of_spare h spared hstart, ← ih _ h.tail spared.tail hstop,
        landingFrom_of_past hordered (Or.inl (by omega))]
    · have hlt : i < s.extent.start := by omega
      rw [landingFrom_of_lt hlt, Landing.after_fixed]
      by_cases hnext : i + 1 < s.extent.start
      · rw [landingFrom_of_lt hnext, Landing.before_fixed]
        omega
      · rw [landingFrom_of_meets hnext (by omega)]
        dsimp only
        omega

end Walk

/-- No splice of the pass takes the character at index `i` away. -/
def Spares (p : Pass) (i : Nat) : Prop := Spare i p.splices

instance (p : Pass) (i : Nat) : Decidable (p.Spares i) :=
  inferInstanceAs (Decidable (Spare i p.splices))

/-- The index after the pass of a character that it spares: what the splices up to it put in
pushes it back, what they take away pulls it forward. -/
def indexAfter (p : Pass) (i : Nat) : Nat :=
  i + inserted (upTo i p.splices) - removed (upTo i p.splices)

variable {p : Pass} {i : Nat}

/-- Positions keep their order. -/
theorem landing_mono (h : p.WellFormed) {pos later : Nat} (hle : pos ≤ later) (side : Side) :
    (p.landing pos).on side ≤ (p.landing later).on side :=
  landingFrom_mono h.inLine.ordered (by omega) side

/-- The side before text comes before the side after it. -/
theorem landing_before_le_after (p : Pass) (pos : Nat) :
    (p.landing pos).before ≤ (p.landing pos).after := landingFrom_before_le_after _ _ _ _

/-- Positions land inside the text after the pass. -/
theorem landing_on_le (h : p.WellFormed) (pos : Nat) (side : Side) :
    (p.landing pos).on side ≤ p.lengthAfter := by
  have hlength := lengthAfter_add_removed h.inLine
  have hle := landingFrom_on_add_removed_le 0 h.inLine (Nat.zero_le _)
    (Nat.min_le_right pos p.lengthBefore) side
  rw [landing]
  omega

/-- Neither end of a spared character is lost. -/
theorem landing_lost_of_spares (h : p.WellFormed) (spared : p.Spares i) {pos : Nat}
    (hpos : pos = i ∨ pos = i + 1) : (p.landing pos).lost = false := by
  rw [← Bool.not_eq_true, landing, landingFrom_lost_iff h.inLine]
  rintro ⟨s, hs, hlost⟩
  have hspared := spared s hs
  have hinside := h.inLine.inside s hs
  omega

/-- A spared character lands, after inserted text, at its index after the pass. -/
theorem landing_after_of_spares (h : p.WellFormed) (hi : i < p.lengthBefore)
    (spared : p.Spares i) : (p.landing i).after = p.indexAfter i := by
  have hshift := landingFrom_after_add_removed 0 h.inLine spared (Nat.zero_le i)
  rw [landing, indexAfter, Nat.min_eq_left (by omega)]
  omega

/-- The position behind a spared character lands, before inserted text, directly behind its index
after the pass. -/
theorem landing_before_succ_of_spares (h : p.WellFormed) (hi : i < p.lengthBefore)
    (spared : p.Spares i) : (p.landing (i + 1)).before = p.indexAfter i + 1 := by
  have hnext := landingFrom_before_succ 0 h.inLine spared (Nat.zero_le i)
  rw [← landing_after_of_spares h hi spared, landing, landing, Nat.min_eq_left (by omega),
    Nat.min_eq_left (by omega)]
  exact hnext

/-- A spared character is inside the text after the pass. -/
theorem indexAfter_lt (h : p.WellFormed) (hi : i < p.lengthBefore) (spared : p.Spares i) :
    p.indexAfter i < p.lengthAfter := by
  have hle := landing_on_le h (i + 1) .before
  rw [Landing.on, landing_before_succ_of_spares h hi spared] at hle
  omega

/-- A position is at or before a spared character exactly if it lands, after inserted text, at or
before the index of the character after the pass. -/
theorem le_iff_landing_after_le (h : p.WellFormed) (hi : i < p.lengthBefore)
    (spared : p.Spares i) (pos : Nat) : pos ≤ i ↔ (p.landing pos).after ≤ p.indexAfter i := by
  constructor
  · intro hle
    rw [← landing_after_of_spares h hi spared]
    exact landing_mono h hle .after
  · intro hle
    refine Nat.le_of_not_lt fun hlt => ?_
    have hmono : (p.landing (i + 1)).after ≤ (p.landing pos).after := landing_mono h hlt .after
    have hsides := landing_before_le_after p (i + 1)
    rw [landing_before_succ_of_spares h hi spared] at hsides
    omega

/-- A position is behind a spared character exactly if it lands, before inserted text, behind the
index of the character after the pass. -/
theorem lt_iff_lt_landing_before (h : p.WellFormed) (hi : i < p.lengthBefore)
    (spared : p.Spares i) (pos : Nat) : i < pos ↔ p.indexAfter i < (p.landing pos).before := by
  constructor
  · intro hlt
    have hmono : (p.landing (i + 1)).before ≤ (p.landing pos).before :=
      landing_mono h hlt .before
    rw [landing_before_succ_of_spares h hi spared] at hmono
    omega
  · intro hlt
    refine Nat.lt_of_not_le fun hle => ?_
    have hmono : (p.landing pos).after ≤ (p.landing i).after := landing_mono h hle .after
    have hsides := landing_before_le_after p pos
    rw [landing_after_of_spares h hi spared] at hmono
    omega

end Pass

end Marginalia
