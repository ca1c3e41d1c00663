import Mathlib.Data.List.Induction
import Marginalia.Proofs.Store.Soundness

/-!
# What the check of a store can find

A store that was valid when the effects of a transaction began can come to be wrong in one way only.
Annotations are placed so that nothing is wrong with them, and a selection that a rule chooses is
one of them. But a host may select what the store does not hold, and unless a later effect replaces
the reports, the check finds that.
-/

namespace Marginalia.Store

variable {s : Store} {doc : Document} {length : Nat}

/-- The store without its selection. -/
def unselected (s : Store) : Store := { s with selected := none }

/-- A valid store is valid without its selection. -/
theorem Valid.unselected (h : s.Valid length) : s.unselected.Valid length :=
  ⟨h.ascends, h.inside, h.narrow, nofun⟩

/-- If a store is valid without its selection, the check only looks at the selection. -/
theorem fault?_eq_selectionFault? (h : s.unselected.Valid length) :
    s.fault? length = s.selectionFault? := by
  have hascends : ascending s.annotations = true := ascending_iff_pairwise.mpr h.ascends
  have hplaces : s.annotations.findSome? (placeFault? length) = none := by
    rw [List.findSome?_eq_none_iff]
    exact fun a ha => placeFault?_eq_none_iff.mpr ⟨h.inside a ha, h.narrow a ha⟩
  rw [fault?, hascends, hplaces]
  rfl

/-- What is wrong with a selection is that its report is not annotated. -/
theorem of_selectionFault?_eq_some {fault : Fault} (h : s.selectionFault? = some fault) :
    fault = .selectionMissing ∧
      ∃ selection, s.selected = some selection ∧ selection.report ∉ s.reports := by
  unfold selectionFault? at h
  split at h
  case h_1 => simp at h
  case h_2 selection hselected =>
    split at h
    case isTrue => simp at h
    case isFalse hmissing => exact ⟨(Option.some.inj h).symm, selection, hselected, hmissing⟩

/-- An effect leaves a store that is valid without its selection, if it was so before. -/
theorem valid_unselected_perform (h : s.unselected.Valid doc.length) (effect : Effect) :
    (s.perform doc effect).unselected.Valid doc.length := by
  cases effect with
  | setReports reports rule => exact (sound_setReports s doc reports rule).valid.unselected
  | setPanel isOpen => exact ⟨h.ascends, h.inside, h.narrow, nofun⟩
  | select selection => exact h

/-- Effects leave a store that is valid without its selection, if it was so before. -/
theorem valid_unselected_foldl_perform (h : s.unselected.Valid doc.length)
    (effects : List Effect) : (effects.foldl (perform doc) s).unselected.Valid doc.length := by
  induction effects generalizing s with
  | nil => exact h
  | cons effect rest ih => exact ih (valid_unselected_perform h effect)

/-- After effects the selected report is annotated, or one of the effects has selected it. -/
theorem held_or_select_of_foldl_perform (h : s.Valid length) (effects : List Effect)
    {selection : Selection}
    (hselected : (effects.foldl (perform doc) s).selected = some selection) :
    selection.report ∈ (effects.foldl (perform doc) s).reports ∨ .select selection ∈ effects := by
  induction effects using List.reverseRecOn with
  | nil => exact Or.inl (h.held selection hselected)
  | append_singleton earlier effect ih =>
    rw [List.foldl_append] at hselected ⊢
    cases effect with
    | setReports reports rule =>
      exact Or.inl ((sound_setReports _ doc reports rule).valid.held selection hselected)
    | setPanel isOpen => exact (ih hselected).imp_right (List.mem_append_left _)
    | select chosen =>
      obtain rfl := Option.some.inj hselected
      exact Or.inr (List.mem_append_right _ List.mem_cons_self)

/-- A transaction whose effects find a valid store only fails if one of them selects a report that
the store does not hold in the end. -/
theorem of_update_eq_error {t : Transaction} {fault : Fault}
    (valid : (s.edited t).Valid doc.length) (h : s.update t doc = .error fault) :
    fault = .selectionMissing ∧ ∃ selection, .select selection ∈ t.effects ∧
      selection.report ∉ (s.advance t doc).reports := by
  have hplaces := valid_unselected_foldl_perform valid.unselected t.effects
  obtain ⟨version, hadvance⟩ := exists_advance_eq s t doc
  have hadvanced : (s.advance t doc).unselected.Valid doc.length := by
    rw [hadvance]
    exact ⟨hplaces.ascends, hplaces.inside, hplaces.narrow, nofun⟩
  rw [update, fault?_eq_selectionFault? hadvanced, hadvance] at h
  split at h
  case h_2 => simp at h
  case h_1 found hfound =>
    obtain rfl := Except.error.inj h
    obtain ⟨hfault, selection, hselected, hmissing⟩ := of_selectionFault?_eq_some hfound
    rw [hadvance]
    exact ⟨hfault, selection,
      (held_or_select_of_foldl_perform valid t.effects hselected).resolve_left hmissing, hmissing⟩

end Marginalia.Store
