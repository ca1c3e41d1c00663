import Mathlib.Data.List.Basic
import Marginalia.View.Gutter

/-!
# Times that are due

A poll stops the times at markers that are due and leaves the others, which lie ahead. Of the
markers that are due and have anything to list, it is the last in line order whose pop-up opens. A
poll that finds no time due does nothing.
-/

namespace Marginalia.Gutter

variable {g : Gutter} {markers : List Marker} {m : Marker} {now : Nat} {options : Options}

/-- All times at markers lie ahead. -/
def IsAhead (markers : List Marker) (now : Nat) : Prop :=
  ∀ m ∈ markers, ∀ due, m.due = some due → now < due

/-- A marker is due when its time has come. -/
theorem Marker.isDue_iff : m.isDue now = true ↔ ∃ due ≤ now, m.due = some due := by
  unfold isDue
  split
  case h_1 due hdue => simp [hdue]
  case h_2 hnone => simp [hnone]

/-- The marker is due and its pop-up would list something. -/
structure Marker.Opens (m : Marker) (now : Nat) (options : Options) : Prop where
  due : ∃ due ≤ now, m.due = some due
  lists : m.listed options ≠ []

/-- Whether a marker opens can be asked of it. -/
theorem Marker.opens_iff :
    m.Opens now options ↔ (m.isDue now && !(m.listed options).isEmpty) = true := by
  rw [Bool.and_eq_true, isDue_iff, Bool.not_eq_true', List.isEmpty_eq_false_iff]
  exact ⟨fun h => ⟨h.due, h.lists⟩, fun h => ⟨h.1, h.2⟩⟩

/-- The time of a gutter lies ahead exactly when the times at all markers do. -/
theorem lt_nextDue_iff : (∀ due, g.nextDue = some due → now < due) ↔ IsAhead g.markers now := by
  have hdues : (∀ due ∈ g.markers.filterMap (·.due), now < due) ↔ IsAhead g.markers now := by
    simp only [IsAhead, List.mem_filterMap, forall_exists_index, and_imp]
    exact ⟨fun h m hm due hdue => h due m hm hdue, fun h due m hm hdue => h m hm due hdue⟩
  rw [← hdues, nextDue]
  constructor
  · intro h due hdue
    obtain ⟨least, hleast⟩ := Option.isSome_iff_exists.mp (List.isSome_min?_of_mem hdue)
    exact Nat.lt_of_lt_of_le (h least hleast) ((List.min?_eq_some_iff.mp hleast).2 due hdue)
  · intro h least hleast
    exact h least (List.min?_eq_some_iff.mp hleast).1

/-- After a poll the times that are left lie ahead. -/
theorem isAhead_poll (g : Gutter) (now : Nat) (options : Options) :
    IsAhead (g.poll now options).1.markers now := by
  intro m hm due hdue
  obtain ⟨old, -, rfl⟩ := List.mem_map.mp hm
  split at hdue
  case isTrue => contradiction
  case isFalse hlater =>
    refine Nat.lt_of_not_le fun hpassed => hlater ?_
    exact Marker.isDue_iff.mpr ⟨due, hpassed, hdue⟩

/-- The pop-up that a poll opens is that of the last marker that opens. -/
theorem duePopup?_eq_some_iff (ascends : markers.Pairwise fun a b => a.lineStart < b.lineStart)
    {p : Popup} : duePopup? markers now options = some p ↔
      ∃ m ∈ markers, m.Opens now options ∧ p = ⟨m.lineStart, m.listed options⟩ ∧
        ∀ other ∈ markers, other.Opens now options → other.lineStart ≤ m.lineStart := by
  have hdescends : markers.reverse.Pairwise fun a b => b.lineStart < a.lineStart :=
    List.pairwise_reverse.mpr ascends
  simp only [duePopup?, Option.map_eq_some_iff, List.find?_eq_some_iff_append, Bool.not_eq_true',
    Marker.opens_iff]
  constructor
  · rintro ⟨m, ⟨hopens, before, behind, hsplit, hnone⟩, rfl⟩
    have hmem (other : Marker) : other ∈ markers ↔ other ∈ before ++ m :: behind := by
      rw [← hsplit, List.mem_reverse]
    refine ⟨m, (hmem m).mpr (List.mem_append_right _ List.mem_cons_self), hopens, rfl,
      fun other hother hopens' => ?_⟩
    rw [hsplit] at hdescends
    rcases List.mem_append.mp ((hmem other).mp hother) with hbefore | hbehind
    · exact absurd hopens' (Bool.eq_false_iff.mp (hnone other hbefore))
    · rcases List.mem_cons.mp hbehind with rfl | hbehind
      · exact Nat.le_refl _
      · have hrest := (List.pairwise_append.mp hdescends).2.1
        exact Nat.le_of_lt ((List.pairwise_cons.mp hrest).1 other hbehind)
  · rintro ⟨m, hm, hopens, rfl, hlast⟩
    obtain ⟨before, behind, hsplit⟩ := List.append_of_mem (List.mem_reverse.mpr hm)
    refine ⟨m, ⟨hopens, before, behind, hsplit, fun other hother => ?_⟩, rfl⟩
    rw [hsplit] at hdescends
    have hlt := (List.pairwise_append.mp hdescends).2.2 other hother m List.mem_cons_self
    have hmem : other ∈ markers := by
      rw [← List.mem_reverse, hsplit]
      exact List.mem_append_left _ hother
    exact Bool.eq_false_iff.mpr fun hopens' =>
      absurd (hlast other hmem hopens') (Nat.not_le.mpr hlt)

/-- A poll that finds no time due does nothing. -/
theorem poll_eq_of_isAhead (ahead : IsAhead g.markers now) (options : Options) :
    g.poll now options = (g, none) := by
  have hdue : ∀ m ∈ g.markers, m.isDue now = false := by
    refine fun m hm => Bool.eq_false_iff.mpr fun hdue => ?_
    obtain ⟨due, hpassed, hset⟩ := Marker.isDue_iff.mp hdue
    exact absurd (ahead m hm due hset) (Nat.not_lt.mpr hpassed)
  have hopened : duePopup? g.markers now options = none := by
    rw [duePopup?, Option.map_eq_none_iff, List.find?_eq_none]
    intro m hm
    rw [hdue m (List.mem_reverse.mp hm)]
    exact Bool.false_ne_true
  have hmarkers : (g.markers.map fun m => if m.isDue now then { m with due := none } else m) =
      g.markers := by
    refine (List.map_congr_left fun m hm => ?_).trans (List.map_id _)
    rw [hdue m hm]
    rfl
  rw [poll, hopened, hmarkers]
  rfl

end Marginalia.Gutter
