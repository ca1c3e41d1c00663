import Marginalia.Proofs.Document
import Marginalia.Proofs.Edit.Untouched
import Marginalia.Proofs.Text.Line
import Marginalia.View.Gutter

/-!
# Sound gutters

A gutter is sound for a text when its markers are at starts of lines, at most one on each and in
the order of the lines, each marker has reports and shows the worst of them, and an open pop-up
is at a marker. Markers made anew are sound by the order of the lines. An edit keeps a gutter
sound whatever it does to the lines: the images of markers keep their order, and so do the lines
that they fall into, so that markers on one line are neighbours. The pop-up stays only while its
line is not touched, and then it goes where its marker goes. Pointers and time change nothing but
when pop-ups open, and open them at markers.
-/

namespace Marginalia

/-- The severity is that of some report of the list and no better than that of any. -/
structure Severity.IsWorstOf (severity : Severity) (reports : List Report) : Prop where
  found : ∃ r ∈ reports, r.severity = severity
  bounds : ∀ r ∈ reports, r.severity ≤ severity

namespace Severity

/-- Severities are ordered by their place, so the order is transitive. -/
theorem le_trans {a b c : Severity} (hab : a ≤ b) (hbc : b ≤ c) : a ≤ c := Nat.le_trans hab hbc

/-- The worse of two severities is one of them and not better than either. -/
theorem worse_cases (a b : Severity) :
    (a.worse b = a ∨ a.worse b = b) ∧ a ≤ a.worse b ∧ b ≤ a.worse b := by
  cases a <;> cases b <;> decide

/-- The worse of the worst of two lists is the worst of both. -/
theorem IsWorstOf.append {a b : Severity} {reports others : List Report}
    (ha : a.IsWorstOf reports) (hb : b.IsWorstOf others) :
    (a.worse b).IsWorstOf (reports ++ others) := by
  obtain ⟨hone, hleft, hright⟩ := worse_cases a b
  refine ⟨?_, List.forall_mem_append.mpr ⟨fun r hr => ?_, fun r hr => ?_⟩⟩
  · rcases hone with hone | hone <;> rw [hone]
    · obtain ⟨r, hr, hseverity⟩ := ha.found
      exact ⟨r, List.mem_append_left _ hr, hseverity⟩
    · obtain ⟨r, hr, hseverity⟩ := hb.found
      exact ⟨r, List.mem_append_right _ hr, hseverity⟩
  · exact le_trans (ha.bounds r hr) hleft
  · exact le_trans (hb.bounds r hr) hright

end Severity

/-- The severity of a single report is the worst. -/
theorem Severity.isWorstOf_singleton (r : Report) : r.severity.IsWorstOf [r] :=
  ⟨⟨r, List.mem_cons_self, rfl⟩, List.forall_mem_singleton.mpr (Nat.le_refl _)⟩

/-- The worst severity of some reports is the worst of them. -/
theorem Report.isWorstOf_worstSeverity {reports : List Report} (h : reports ≠ []) :
    (worstSeverity reports).IsWorstOf reports := by
  have hfold (worst : Severity) (seen rest : List Report) (hseen : worst.IsWorstOf seen) :
      (rest.foldl (fun worst r => worst.worse r.severity) worst).IsWorstOf (seen ++ rest) := by
    induction rest generalizing worst seen with
    | nil =>
      rw [List.append_nil]
      exact hseen
    | cons r rest ih =>
      rw [List.append_cons]
      exact ih _ _ (hseen.append (Severity.isWorstOf_singleton r))
  cases reports with
  | nil => exact absurd rfl h
  | cons r rest =>
    have hfirst : Severity.worse .hint r.severity = r.severity := by
      cases r.severity <;> rfl
    rw [worstSeverity, List.foldl_cons, hfirst]
    exact hfold _ [r] rest (Severity.isWorstOf_singleton r)

namespace Gutter

/-- A marker without the time at which its pop-up opens. -/
def Marker.undated (m : Marker) : Marker := { m with due := none }

/-- The marker is at the start of a line and shows the worst of its reports. -/
structure Marker.Sound (m : Marker) (t : Text) : Prop where
  placed : ∃ line ∈ t.lines, line.start = m.lineStart
  worst : m.severity.IsWorstOf m.reports

/-- What a gutter for a text has to be: a marker or none on each line, in order, each sound, and
one at the pop-up if it is open. -/
structure Sound (g : Gutter) (t : Text) : Prop where
  ascends : g.markers.Pairwise fun a b => a.lineStart < b.lineStart
  markers : ∀ m ∈ g.markers, m.Sound t
  anchored : ∀ p, g.popup = some p → ∃ m ∈ g.markers, m.lineStart = p.lineStart

/-- The markers stay as they are but for the times at which pop-ups open, and the pop-up stays,
closes, or opens at a marker. -/
structure Keeps (g next : Gutter) : Prop where
  markers : next.markers.map Marker.undated = g.markers.map Marker.undated
  popup : ∀ p, next.popup = some p →
    g.popup = some p ∨ ∃ m ∈ g.markers, m.lineStart = p.lineStart

variable {g next : Gutter} {t : Text} {markers : List Marker}

/-- The empty gutter is sound. -/
theorem sound_empty (t : Text) : empty.Sound t := ⟨List.Pairwise.nil, nofun, nofun⟩

/-- A marker without its time is as sound as with it. -/
theorem Marker.sound_undated {m : Marker} : m.undated.Sound t ↔ m.Sound t :=
  ⟨fun h => ⟨h.placed, h.worst⟩, fun h => ⟨h.placed, h.worst⟩⟩

/-- Times and pop-ups at markers keep a gutter sound. -/
theorem Sound.of_keeps (sound : g.Sound t) (keeps : g.Keeps next) : next.Sound t where
  ascends := by
    have hascends : (g.markers.map Marker.undated).Pairwise fun a b => a.lineStart < b.lineStart :=
      List.pairwise_map.mpr sound.ascends
    rw [← keeps.markers, List.pairwise_map] at hascends
    exact hascends
  markers := by
    intro m hm
    have hmem : m.undated ∈ g.markers.map Marker.undated := by
      rw [← keeps.markers]
      exact List.mem_map_of_mem hm
    obtain ⟨old, hold, hundated⟩ := List.mem_map.mp hmem
    rw [← Marker.sound_undated, ← hundated, Marker.sound_undated]
    exact sound.markers old hold
  anchored := by
    intro p hp
    obtain ⟨old, hold, hline⟩ := (keeps.popup p hp).elim (sound.anchored p) id
    have hmem : old.undated ∈ next.markers.map Marker.undated := by
      rw [keeps.markers]
      exact List.mem_map_of_mem hold
    obtain ⟨m, hm, hundated⟩ := List.mem_map.mp hmem
    have hlines : m.undated.lineStart = old.undated.lineStart :=
      congrArg Marker.lineStart hundated
    exact ⟨m, hm, hlines.trans hline⟩

section Pointer

/-- Nothing has happened. -/
theorem Keeps.refl (g : Gutter) : g.Keeps g := ⟨rfl, fun _ hp => Or.inl hp⟩

/-- Changing the time of a marker changes nothing else. -/
theorem map_undated_updateFirst (which : Marker → Bool) {change : Marker → Marker}
    (h : ∀ m, (change m).undated = m.undated) (markers : List Marker) :
    (updateFirst which change markers).map Marker.undated = markers.map Marker.undated := by
  induction markers with
  | nil => rfl
  | cons m rest ih =>
    rw [updateFirst]
    split
    case isTrue => rw [List.map_cons, List.map_cons, h]
    case isFalse => rw [List.map_cons, List.map_cons, ih]

/-- Coming to a marker sets at most its time. -/
theorem keeps_pointerOver (g : Gutter) (lineStart now : Nat) (options : Options) :
    g.Keeps (g.pointerOver lineStart now options).1 := by
  unfold pointerOver
  split
  case h_1 => exact .refl g
  case h_2 =>
    split
    case isTrue => exact .refl g
    case isFalse =>
      refine ⟨map_undated_updateFirst _ ?_ g.markers, fun _ hp => Or.inl hp⟩
      exact fun _ => rfl

/-- Moving on a marker sets at most its time. -/
theorem keeps_pointerMove (g : Gutter) (lineStart now : Nat) (options : Options) :
    g.Keeps (g.pointerMove lineStart now options) := by
  refine ⟨map_undated_updateFirst _ ?_ g.markers, fun _ hp => Or.inl hp⟩
  exact fun _ => rfl

/-- Leaving a marker sets at most its time. -/
theorem keeps_pointerOut (g : Gutter) (lineStart : Nat) : g.Keeps (g.pointerOut lineStart) := by
  refine ⟨map_undated_updateFirst _ ?_ g.markers, fun _ hp => Or.inl hp⟩
  exact fun _ => rfl

/-- Moving the pointer closes the pop-up or does nothing. -/
theorem keeps_pointerMoved (g : Gutter) (pointer : ScreenPoint) (marker : Rect)
    (overPopup : Bool) (options : Options) :
    g.Keeps (g.pointerMoved pointer marker overPopup options).1 := by
  unfold pointerMoved
  split
  case isTrue => exact .refl g
  case isFalse => exact ⟨rfl, nofun⟩

/-- Stopping every time and closing the pop-up leaves the markers. -/
theorem keeps_cancel (g : Gutter) : g.Keeps g.cancel.1 := by
  refine ⟨?_, nofun⟩
  rw [cancel, List.map_map]
  rfl

/-- Polling stops times and opens a pop-up at a marker. -/
theorem keeps_poll (g : Gutter) (now : Nat) (options : Options) :
    g.Keeps (g.poll now options).1 where
  markers := by
    rw [poll, List.map_map]
    refine List.map_congr_left fun m _ => ?_
    rw [Function.comp_apply]
    split <;> rfl
  popup := by
    intro p hp
    rcases Option.or_eq_some_iff.mp hp with hopened | ⟨-, hstays⟩
    · obtain ⟨m, hfound, rfl⟩ := Option.map_eq_some_iff.mp hopened
      exact Or.inr ⟨m, List.mem_reverse.mp (List.mem_of_find?_eq_some hfound), rfl⟩
    · exact Or.inl hstays

end Pointer

/-- What a marker of the line lists when it is made anew. -/
def listedOn (s : Store) (doc : Document) (filter : Option Filter) (line : Line) : List Report :=
  reportsOn line.number
    ((s.annotations.filter fun a => Filter.shows filter s.reports a.report).map
      fun a => (lineNumbers doc a.extent, a.report))

/-- The markers made anew are those of the lines on which there is anything to list. -/
theorem mem_markersOf_iff_listedOn {s : Store} {doc : Document} {filter : Option Filter}
    {m : Marker} : m ∈ markersOf s doc filter ↔ ∃ line ∈ doc.text.lines,
      listedOn s doc filter line ≠ [] ∧
        m = .ofReports line.start (listedOn s doc filter line) := by
  constructor
  · intro hm
    obtain ⟨line, hline, hmade⟩ := List.mem_filterMap.mp hm
    split at hmade
    case h_1 => simp at hmade
    case h_2 hlists => exact ⟨line, hline, hlists, (Option.some.inj hmade).symm⟩
  · rintro ⟨line, hline, hlists, rfl⟩
    refine List.mem_filterMap.mpr ⟨line, hline, ?_⟩
    unfold listedOn at hlists ⊢
    split
    case h_1 hnone => exact absurd hnone hlists
    case h_2 => rfl

/-- Markers made anew are sound, and no pop-up is open. -/
theorem sound_rebuild (g : Gutter) (s : Store) (doc : Document) (filter : Option Filter) :
    (g.rebuild s doc filter).1.Sound doc.text where
  ascends := by
    refine (Text.lines_pairwise doc.text).filterMap _ fun a b hlt m hm m' hm' => ?_
    split at hm
    case h_1 => simp at hm
    case h_2 =>
      split at hm'
      case h_1 => simp at hm'
      case h_2 =>
        obtain rfl := Option.some.inj hm
        obtain rfl := Option.some.inj hm'
        exact hlt
  markers := by
    intro m hm
    obtain ⟨line, hline, hlists, rfl⟩ := mem_markersOf_iff_listedOn.mp hm
    exact ⟨⟨line, hline, rfl⟩, Report.isWorstOf_worstSeverity hlists⟩
  anchored := nofun

section Merge

/-- What holds of markers, and of one marker made of two, holds of merged markers. -/
theorem forall_mem_mergeAfter {P : Marker → Prop} (habsorb : ∀ a b, P a → P b → P (a.absorb b))
    {held : Marker} (h : P held) (hmarkers : ∀ m ∈ markers, P m) :
    ∀ m ∈ mergeAfter held markers, P m := by
  induction markers generalizing held with
  | nil => exact List.forall_mem_singleton.mpr h
  | cons m rest ih =>
    obtain ⟨hm, hrest⟩ := List.forall_mem_cons.mp hmarkers
    rw [mergeAfter]
    split
    case isTrue => exact ih (habsorb held m h hm) hrest
    case isFalse => exact List.forall_mem_cons.mpr ⟨h, ih hm hrest⟩

/-- What holds of markers, and of one marker made of two, holds of merged markers. -/
theorem forall_mem_merge {P : Marker → Prop} (habsorb : ∀ a b, P a → P b → P (a.absorb b))
    (hmarkers : ∀ m ∈ markers, P m) : ∀ m ∈ merge markers, P m := by
  cases markers with
  | nil => exact hmarkers
  | cons m rest =>
    obtain ⟨hm, hrest⟩ := List.forall_mem_cons.mp hmarkers
    exact forall_mem_mergeAfter habsorb hm hrest

/-- Merging leaves a marker on each line that had one. -/
theorem exists_mem_mergeAfter {held m : Marker} (h : m ∈ held :: markers) :
    ∃ merged ∈ mergeAfter held markers, merged.lineStart = m.lineStart := by
  induction markers generalizing held m with
  | nil => exact ⟨held, List.mem_cons_self, by rw [List.mem_singleton.mp h]⟩
  | cons next rest ih =>
    rw [mergeAfter]
    split
    case isTrue hsame =>
      have hboth : held.absorb next ∈ held.absorb next :: rest := List.mem_cons_self
      obtain ⟨merged, hmerged, hline⟩ := ih hboth
      rcases List.mem_cons.mp h with rfl | h
      · exact ⟨merged, hmerged, hline⟩
      · rcases List.mem_cons.mp h with rfl | h
        · exact ⟨merged, hmerged, hline.trans hsame⟩
        · exact ih (List.mem_cons_of_mem _ h)
    case isFalse =>
      rcases List.mem_cons.mp h with rfl | h
      · exact ⟨m, List.mem_cons_self, rfl⟩
      · obtain ⟨merged, hmerged, hline⟩ := ih h
        exact ⟨merged, List.mem_cons_of_mem _ hmerged, hline⟩

/-- Merging leaves a marker on each line that had one. -/
theorem exists_mem_merge {m : Marker} (h : m ∈ markers) :
    ∃ merged ∈ merge markers, merged.lineStart = m.lineStart := by
  cases markers with
  | nil => simp at h
  | cons first rest => exact exists_mem_mergeAfter h

/-- Markers in the order of their lines are merged to at most one on each line. -/
theorem mergeAfter_pairwise {held : Marker}
    (h : (held :: markers).Pairwise fun a b => a.lineStart ≤ b.lineStart) :
    (mergeAfter held markers).Pairwise fun a b => a.lineStart < b.lineStart := by
  induction markers generalizing held with
  | nil => exact List.pairwise_singleton _ _
  | cons m rest ih =>
    obtain ⟨hheld, hrest⟩ := List.pairwise_cons.mp h
    obtain ⟨hm, hbehind⟩ := List.pairwise_cons.mp hrest
    rw [mergeAfter]
    split
    case isTrue =>
      have hahead := (List.forall_mem_cons.mp hheld).2
      exact ih (List.pairwise_cons.mpr ⟨hahead, hbehind⟩)
    case isFalse hother =>
      refine List.pairwise_cons.mpr ⟨?_, ih hrest⟩
      have hlt : held.lineStart < m.lineStart :=
        Nat.lt_of_le_of_ne (hheld m List.mem_cons_self) hother
      exact forall_mem_mergeAfter (fun _ _ ha _ => ha) hlt
        fun next hnext => Nat.lt_of_lt_of_le hlt (hm next hnext)

/-- Markers in the order of their lines are merged to at most one on each line. -/
theorem merge_pairwise (h : markers.Pairwise fun a b => a.lineStart ≤ b.lineStart) :
    (merge markers).Pairwise fun a b => a.lineStart < b.lineStart := by
  cases markers with
  | nil => exact List.Pairwise.nil
  | cons m rest => exact mergeAfter_pairwise h

end Merge

section Carry

variable {e : Edit} {before after : Document}

/-- An edit keeps the order of markers, though some may come together on one line. -/
theorem carryMarker?_pairwise (formed : e.WellFormed)
    (h : markers.Pairwise fun a b => a.lineStart < b.lineStart) :
    (markers.filterMap (carryMarker? e after)).Pairwise fun a b => a.lineStart ≤ b.lineStart := by
  refine h.filterMap _ fun a b hlt m hm m' hm' => ?_
  obtain ⟨offset, himage, rfl⟩ := Option.map_eq_some_iff.mp hm
  obtain ⟨later, hlater, rfl⟩ := Option.map_eq_some_iff.mp hm'
  rw [← Edit.image_eq_of_image? himage, ← Edit.image_eq_of_image? hlater]
  exact Text.start_lineAt_mono after.text (Edit.image_mono formed (Nat.le_of_lt hlt) .after)

/-- A pop-up that an edit leaves open goes where a marker on its line goes. -/
theorem lineStart_of_carryPopup? (formed : e.WellFormed) (fits : before.length = e.lengthBefore)
    {p carried : Popup} (hline : ∃ line ∈ before.text.lines, line.start = p.lineStart)
    (h : carryPopup? e before after p = some carried) :
    ∃ offset, e.image? .after p.lineStart = some offset ∧
      carried.lineStart = (after.lineAt offset).start := by
  obtain ⟨line, hmem, hstart⟩ := hline
  have hat : before.lineAt p.lineStart = line := by
    rw [← hstart]
    exact Text.lineAt_start hmem
  unfold carryPopup? at h
  rw [hat] at h
  dsimp only at h
  split at h
  case isTrue => simp at h
  case isFalse untouched =>
    obtain rfl := Option.some.inj h
    have hbounds := Text.bounds_of_mem_lines hmem
    have hlength : line.stop ≤ e.lengthBefore := by
      rw [← fits]
      exact hbounds.2
    have himage := Edit.image?_of_untouched formed ((Bool.not_eq_true _).mp untouched)
      hlength (Nat.le_refl _) hbounds.1 .after
    rw [hstart] at himage
    exact ⟨_, himage, rfl⟩

/-- An edit keeps a gutter sound. -/
theorem Sound.carry (sound : g.Sound before.text) (formed : e.WellFormed)
    (fits : before.length = e.lengthBefore) (after : Document) :
    (g.carry e before after).1.Sound after.text where
  ascends := merge_pairwise (carryMarker?_pairwise formed sound.ascends)
  markers := by
    refine forall_mem_merge (fun a b ha hb => ⟨ha.placed, ha.worst.append hb.worst⟩) ?_
    intro m hm
    obtain ⟨old, hold, hcarried⟩ := List.mem_filterMap.mp hm
    obtain ⟨offset, -, rfl⟩ := Option.map_eq_some_iff.mp hcarried
    exact ⟨⟨_, Text.lineAt_mem after.text offset, rfl⟩, (sound.markers old hold).worst⟩
  anchored := by
    intro carried hcarried
    obtain ⟨p, hp, hpopup⟩ := Option.bind_eq_some_iff.mp hcarried
    obtain ⟨m, hm, hline⟩ := sound.anchored p hp
    have hplaced := (sound.markers m hm).placed
    rw [hline] at hplaced
    obtain ⟨offset, himage, hstart⟩ := lineStart_of_carryPopup? formed fits hplaced hpopup
    rw [← hline] at himage
    have hmoved : { m with lineStart := (after.lineAt offset).start } ∈
        g.markers.filterMap (carryMarker? e after) :=
      List.mem_filterMap.mpr ⟨m, hm, Option.map_eq_some_iff.mpr ⟨offset, himage, rfl⟩⟩
    obtain ⟨merged, hmerged, hsame⟩ := exists_mem_merge hmoved
    exact ⟨merged, hmerged, hsame.trans hstart.symm⟩

end Carry

end Gutter

end Marginalia
