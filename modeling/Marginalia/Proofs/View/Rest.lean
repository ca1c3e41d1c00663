import Marginalia.Proofs.View.Due
import Marginalia.Proofs.View.Gutter

/-!
# Gutters at rest

A gutter is at rest when no pop-up is open and none is due to open. Only a pointer that comes to a
marker starts a time, so everything else keeps a gutter at rest: edits carry the markers without
times and merge them, new markers have none, a move starts again only what runs, and polling finds
nothing due.
-/

namespace Marginalia.Gutter

variable {g : Gutter} {markers : List Marker} {now : Nat} {options : Options}

/-- No pop-up is open, and none will open by itself. -/
structure Rests (g : Gutter) : Prop where
  idle : ∀ m ∈ g.markers, m.due = none
  closed : g.popup = none

/-- Without a time at a marker there is no time at all. -/
theorem nextDue_of_idle (idle : ∀ m ∈ g.markers, m.due = none) : g.nextDue = none := by
  have hnone : g.markers.filterMap (·.due) = [] := List.filterMap_eq_nil_iff.mpr idle
  rw [nextDue, hnone]
  rfl

/-- Canceling puts a gutter to rest. -/
theorem rests_cancel (g : Gutter) : g.cancel.1.Rests := by
  refine ⟨fun m hm => ?_, rfl⟩
  obtain ⟨old, -, rfl⟩ := List.mem_map.mp hm
  rfl

/-- New markers are at rest. -/
theorem rests_rebuild (g : Gutter) (s : Store) (doc : Document) (filter : Option Filter) :
    (g.rebuild s doc filter).1.Rests := by
  refine ⟨fun m hm => ?_, rfl⟩
  obtain ⟨line, -, -, rfl⟩ := mem_markersOf_iff_listedOn.mp hm
  rfl

/-- An edit keeps a gutter at rest. -/
theorem Rests.carry (rests : g.Rests) (e : Edit) (before after : Document) :
    (g.carry e before after).1.Rests where
  idle := by
    refine forall_mem_merge (fun a b ha hb => ?_) fun m hm => ?_
    · rw [Marker.absorb, ha, hb]
      rfl
    · obtain ⟨old, hold, hcarried⟩ := List.mem_filterMap.mp hm
      obtain ⟨offset, -, rfl⟩ := Option.map_eq_some_iff.mp hcarried
      exact rests.idle old hold
  closed := by
    rw [Gutter.carry, rests.closed]
    rfl

/-- What holds of markers, and of the one that is changed, holds after the change. -/
theorem forall_mem_updateFirst {P : Marker → Prop} {which : Marker → Bool}
    {change : Marker → Marker} (hchange : ∀ m, P m → which m = true → P (change m))
    (hmarkers : ∀ m ∈ markers, P m) : ∀ m ∈ updateFirst which change markers, P m := by
  induction markers with
  | nil => exact hmarkers
  | cons m rest ih =>
    obtain ⟨hm, hrest⟩ := List.forall_mem_cons.mp hmarkers
    rw [updateFirst]
    split
    case isTrue hwhich => exact List.forall_mem_cons.mpr ⟨hchange m hm hwhich, hrest⟩
    case isFalse => exact List.forall_mem_cons.mpr ⟨hm, ih hrest⟩

/-- A move starts no time in a gutter at rest. -/
theorem Rests.pointerMove (rests : g.Rests) (lineStart now : Nat) (options : Options) :
    (g.pointerMove lineStart now options).Rests := by
  refine ⟨forall_mem_updateFirst (fun m hm hwhich => ?_) rests.idle, rests.closed⟩
  rw [Bool.and_eq_true, hm] at hwhich
  exact absurd hwhich.2 Bool.false_ne_true

/-- Leaving a marker keeps a gutter at rest. -/
theorem Rests.pointerOut (rests : g.Rests) (lineStart : Nat) : (g.pointerOut lineStart).Rests := by
  refine ⟨forall_mem_updateFirst ?_ rests.idle, rests.closed⟩
  exact fun _ _ _ => rfl

/-- Moving off a pop-up does nothing in a gutter at rest. -/
theorem Rests.pointerMoved_eq (rests : g.Rests) (pointer : ScreenPoint) (marker : Rect)
    (overPopup : Bool) (options : Options) :
    g.pointerMoved pointer marker overPopup options = (g, false) := by
  rw [pointerMoved, rests.closed]
  rfl

/-- Polling does nothing in a gutter at rest. -/
theorem Rests.poll_eq (rests : g.Rests) (now : Nat) (options : Options) :
    g.poll now options = (g, none) := by
  refine poll_eq_of_isAhead (fun m hm due hdue => ?_) options
  rw [rests.idle m hm] at hdue
  contradiction

end Marginalia.Gutter
