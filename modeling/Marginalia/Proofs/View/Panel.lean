import Marginalia.Proofs.View.ListPatch
import Marginalia.View.Panel

/-!
# The panel shows the store

Whatever a panel has listed before, bringing it in line with a store makes it list the reports of
the store, since the patch of its items is the patch of their reports. The marking then selects
the first item of the selected report and no other one. The ids of the items stay different, as
a new item takes one that is above all others.
-/

namespace Marginalia.Panel

variable {p : Panel} {items : List Item} {selected : Option Report}

/-- Two items never have the same id, and the ids from the next one on are free. -/
structure Distinct (p : Panel) : Prop where
  nodup : (p.items.map (·.id)).Nodup
  below : ∀ id ∈ p.items.map (·.id), id < p.nextId

/-- The panel lists the reports of the store, and has selected the first item of the selected
report and no other one. -/
structure Shows (p : Panel) (s : Store) : Prop where
  lists : p.items.map (·.report) = s.reports
  single : p.items.countP (·.selected) ≤ 1
  chosen : p.selectedIndex =
    s.selected.bind fun selection => p.items.findIdx? (·.report == selection.report)

/-- What happened to the list at a step of a patch: something at the index of the step. -/
def Change.Follows : ListPatch.Step Report → Change → Prop
  | .insert index _, .inserted place _ => place = index
  | .remove index, .removed place _ => place = index
  | _, _ => False

/-- An empty panel has different ids. -/
theorem distinct_empty : empty.Distinct := ⟨.nil, nofun⟩

/-- The step that is made on the items for a step on the reports. -/
def itemStep (p : Panel) : ListPatch.Step Report → ListPatch.Step Item
  | .insert index r => .insert index (.ofReport p.nextId r)
  | .remove index => .remove index

/-- A step is made on the items. -/
theorem items_patchStep (p : Panel) (step : ListPatch.Step Report) :
    (p.patchStep step).1.items = (p.itemStep step).apply p.items := by
  cases step with
  | insert index r => rfl
  | remove index =>
    rw [patchStep, itemStep, ListPatch.Step.apply]
    cases hitem : p.items[index]? with
    | none => rw [List.eraseIdx_of_length_le (List.getElem?_eq_none_iff.mp hitem)]
    | some item => rfl

/-- A step on the items is the step on their reports. -/
theorem reports_patchStep (p : Panel) (step : ListPatch.Step Report) :
    (p.patchStep step).1.items.map (·.report) = step.apply (p.items.map (·.report)) := by
  rw [items_patchStep]
  cases step with
  | insert index r => exact List.map_insertIdx _ p.items index _
  | remove index => exact (List.eraseIdx_map ..).symm

/-- A patch of the items is the patch of their reports. -/
theorem reports_patch (p : Panel) (steps : List (ListPatch.Step Report)) :
    (p.patch steps).1.items.map (·.report) = ListPatch.apply steps (p.items.map (·.report)) := by
  induction steps generalizing p with
  | nil => rfl
  | cons step rest ih =>
    rw [ListPatch.apply_cons, ← reports_patchStep, ← ih]
    rfl

/-- A removal that fits takes the item at its index away and names it. -/
theorem patchStep_remove {index : Nat} (h : index < p.items.length) :
    p.patchStep (.remove index) =
      ({ p with items := p.items.eraseIdx index }, [.removed index p.items[index].id]) := by
  rw [patchStep, List.getElem?_eq_getElem h]

/-- A patch whose steps all fit is carried out step by step, one change for each. -/
theorem follows_patch {steps : List (ListPatch.Step Report)} {reports : List Report}
    (h : ListPatch.make? steps (p.items.map (·.report)) = some reports) :
    List.Forall₂ Change.Follows steps (p.patch steps).2 := by
  induction steps generalizing p with
  | nil => exact .nil
  | cons step rest ih =>
    obtain ⟨hfits, hrest⟩ := ListPatch.make?_cons_eq_some_iff.mp h
    rw [← reports_patchStep] at hrest
    have hbehind := ih hrest
    cases step with
    | insert index r => exact .cons rfl hbehind
    | remove index =>
      have hindex : index < p.items.length := by simpa [ListPatch.Step.fits] using hfits
      rw [patchStep_remove hindex] at hbehind
      rw [patch, patchStep_remove hindex]
      exact .cons rfl hbehind

/-- A step keeps the ids different. -/
theorem Distinct.patchStep (h : p.Distinct) (step : ListPatch.Step Report) :
    (p.patchStep step).1.Distinct := by
  cases step with
  | insert index r =>
    have hfree : p.nextId ∉ p.items.map (·.id) := fun hmem => Nat.lt_irrefl _ (h.below _ hmem)
    have hids : (p.patchStep (.insert index r)).1.items.map (·.id) =
        (p.items.map (·.id)).insertIdx index p.nextId := List.map_insertIdx _ p.items index _
    constructor
    · rw [hids]
      by_cases hindex : index ≤ (p.items.map (·.id)).length
      · exact (List.perm_insertIdx _ _ hindex).nodup_iff.mpr (List.nodup_cons.mpr ⟨hfree, h.nodup⟩)
      · rw [List.insertIdx_of_length_lt (Nat.lt_of_not_le hindex)]
        exact h.nodup
    · intro id hid
      rw [hids] at hid
      rcases List.eq_or_mem_of_mem_insertIdx hid with rfl | hold
      · exact Nat.lt_succ_self _
      · exact Nat.lt_succ_of_lt (h.below id hold)
  | remove index =>
    rw [Panel.patchStep]
    cases p.items[index]? with
    | none => exact h
    | some item =>
      have hsub := (List.eraseIdx_sublist p.items index).map (·.id)
      exact ⟨h.nodup.sublist hsub, fun id hid => h.below id (hsub.subset hid)⟩

/-- A patch keeps the ids different. -/
theorem Distinct.patch (h : p.Distinct) (steps : List (ListPatch.Step Report)) :
    (p.patch steps).1.Distinct := by
  induction steps generalizing p with
  | nil => exact h
  | cons step rest ih => exact ih (h.patchStep step)

/-- Marking changes nothing but what is selected. -/
theorem map_markSelected {α : Type} (f : Item → α)
    (hf : ∀ item b, f { item with selected := b } = f item) (items : List Item) :
    (markSelected selected items).map f = items.map f := by
  induction items with
  | nil => rfl
  | cons item rest ih =>
    rw [markSelected]
    split
    case isTrue => simp [hf, Function.comp_def]
    case isFalse => simp [hf, ih]

/-- The selected item is the first one of the report. -/
theorem findIdx?_markSelected (selected : Option Report) (items : List Item) :
    (markSelected selected items).findIdx? (·.selected) =
      items.findIdx? fun item => some item.report == selected := by
  induction items with
  | nil => rfl
  | cons item rest ih =>
    rw [markSelected]
    split
    case isTrue h => simp [List.findIdx?_cons, h]
    case isFalse h => simp [List.findIdx?_cons, h, ih]

/-- At most one item is selected. -/
theorem countP_markSelected_le (selected : Option Report) (items : List Item) :
    (markSelected selected items).countP (·.selected) ≤ 1 := by
  induction items with
  | nil => exact Nat.zero_le 1
  | cons item rest ih =>
    rw [markSelected]
    split
    case isTrue => simp [List.countP_map, Function.comp_def]
    case isFalse => simpa [List.countP_cons] using ih

/-- A report stands at the same index of the items after marking. -/
theorem findIdx?_report_markSelected (selected : Option Report) (items : List Item) (r : Report) :
    (markSelected selected items).findIdx? (·.report == r) =
      items.findIdx? (·.report == r) := by
  calc (markSelected selected items).findIdx? (·.report == r)
      = ((markSelected selected items).map (·.report)).findIdx? (· == r) := by
        rw [List.findIdx?_map]
        rfl
    _ = (items.map (·.report)).findIdx? (· == r) := by rw [map_markSelected _ fun _ _ => rfl]
    _ = items.findIdx? (·.report == r) := List.findIdx?_map

/-- A panel that was brought in line with a store shows it. -/
theorem shows_sync (p : Panel) (s : Store) : (p.sync s).1.Shows s := by
  let patched := (p.patch (ListPatch.between (p.items.map (·.report)) s.reports)).1.items
  let wanted := s.selected.map (·.report)
  have hreports : (markSelected wanted patched).map (·.report) = s.reports := by
    rw [map_markSelected _ fun _ _ => rfl, reports_patch, ListPatch.apply_between]
  refine ⟨hreports, countP_markSelected_le wanted patched, ?_⟩
  change (markSelected wanted patched).findIdx? (·.selected) =
    s.selected.bind fun selection =>
      (markSelected wanted patched).findIdx? (·.report == selection.report)
  simp only [findIdx?_markSelected, findIdx?_report_markSelected]
  cases hselected : s.selected with
  | none => simp [wanted, hselected]
  | some selection => simp [wanted, hselected]

/-- The patch between two lists of reports, repeated or not, leads from the one to the other, with
every step at an index that is there when its turn comes. A panel that is brought in line with a
store carries out all its steps, and then lists the reports of the store. -/
theorem patched_to_reports :
    (∀ old new : List Report, ListPatch.make? (ListPatch.between old new) old = some new) ∧
    ∀ (p : Panel) (s : Store),
      List.Forall₂ Change.Follows (ListPatch.between (p.items.map (·.report)) s.reports)
        (p.sync s).2.changes ∧
      (p.sync s).1.items.map (·.report) = s.reports := by
  refine ⟨ListPatch.make?_between, fun p s => ⟨?_, (shows_sync p s).lists⟩⟩
  exact follows_patch (ListPatch.make?_between (p.items.map (·.report)) s.reports)

/-- A panel that shows a store has an item selected exactly if the store has a report selected
that it holds. -/
theorem Shows.isSome_selectedIndex {s : Store} (h : p.Shows s)
    (held : ∀ selection, s.selected = some selection → selection.report ∈ s.reports) :
    p.selectedIndex.isSome = s.selected.isSome := by
  rw [h.chosen]
  cases hselected : s.selected with
  | none => rfl
  | some selection =>
    have hlisted := held selection hselected
    rw [← h.lists] at hlisted
    obtain ⟨item, hitem, hreport⟩ := List.mem_map.mp hlisted
    rw [Option.bind_some, List.findIdx?_isSome, Option.isSome_some, List.any_eq_true]
    exact ⟨item, hitem, beq_of_eq hreport⟩

/-- Bringing a panel in line with a store keeps the ids different. -/
theorem Distinct.sync (h : p.Distinct) (s : Store) : (p.sync s).1.Distinct := by
  let patched := (p.patch (ListPatch.between (p.items.map (·.report)) s.reports)).1
  have hpatched : patched.Distinct := h.patch _
  have hids : (p.sync s).1.items.map (·.id) = patched.items.map (·.id) :=
    map_markSelected _ (fun _ _ => rfl) patched.items
  constructor
  · rw [hids]
    exact hpatched.nodup
  · rw [hids]
    exact hpatched.below

end Marginalia.Panel
