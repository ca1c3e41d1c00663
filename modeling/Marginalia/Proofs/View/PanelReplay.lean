import Mathlib.Data.List.Nodup
import Mathlib.Data.List.Perm.Basic
import Marginalia.Proofs.View.Panel

/-!
# Replaying the updates of a panel

A host that starts from an empty list and makes the changes of every update in their order has the
ids of the items, in the order of the panel. Ids are given out from zero on, one for each item that
is made, so that none comes twice, and what an update does not remove stays as it is under its id.
An update names the selected item as the active one, and as newly selected exactly if that is not
what the update before it has named.
-/

namespace Marginalia.Panel

variable {p : Panel} {item : Item} {steps : List (ListPatch.Step Report)}

/-- The id of the item that a change brings. -/
def Change.created? : Change → Option Nat
  | .inserted _ id => some id
  | .removed _ _ => none

/-- The id of the item that a change takes away. -/
def Change.discarded? : Change → Option Nat
  | .inserted _ _ => none
  | .removed _ id => some id

/-- Make a change in a list of ids, if its index is there; a removal has to name the id that it
takes away. -/
def Change.replay? (ids : List Nat) : Change → Option (List Nat)
  | .inserted index id => if index ≤ ids.length then some (ids.insertIdx index id) else none
  | .removed index id => if ids[index]? = some id then some (ids.eraseIdx index) else none

/-- The ids of the items that changes bring. -/
def created (changes : List Change) : List Nat := changes.filterMap Change.created?

/-- The ids of the items that changes take away. -/
def discarded (changes : List Change) : List Nat := changes.filterMap Change.discarded?

/-- Make changes in a list of ids, one after another. -/
def replay? (changes : List Change) (ids : List Nat) : Option (List Nat) :=
  changes.foldlM Change.replay? ids

/-- The items that have none of the ids. -/
def without (ids : List Nat) (items : List Item) : List Item := items.filter (·.id ∉ ids)

/-- An item but for whether it is selected. -/
def Item.unmarked (item : Item) : Item := { item with selected := false }

/-- A panel that was opened for a store and then brought in line with other stores, and the updates
that it has given. -/
def follow (first : Store) (later : List Store) : Panel × List Update :=
  later.foldl (fun shown s => ((shown.1.sync s).1, shown.2 ++ [(shown.1.sync s).2]))
    ((opened first).1, [(opened first).2])

/-- The item that the last of some updates has named as the active one. -/
def lastActive (updates : List Update) : Option Nat := updates.getLast?.bind (·.active)

section Changes

/-- Changes that come one after another are made so. -/
theorem replay?_append (changes more : List Change) (ids : List Nat) :
    replay? (changes ++ more) ids = (replay? changes ids).bind (replay? more) := List.foldlM_append

/-- The ids that changes bring come in the order of the changes. -/
theorem created_append (changes more : List Change) :
    created (changes ++ more) = created changes ++ created more := List.filterMap_append

/-- The ids that changes take away come in the order of the changes. -/
theorem discarded_append (changes more : List Change) :
    discarded (changes ++ more) = discarded changes ++ discarded more := List.filterMap_append

/-- Items that are left out by two lists of ids are left out by one and then by the other. -/
theorem without_append (ids more : List Nat) (items : List Item) :
    without (ids ++ more) items = without more (without ids items) := by
  rw [without, without, without, List.filter_filter]
  refine List.filter_congr fun item _ => ?_
  simp [Bool.and_comm]

/-- The order in which items are left out does not matter. -/
theorem without_comm (ids more : List Nat) (items : List Item) :
    without ids (without more items) = without more (without ids items) := by
  rw [← without_append, ← without_append, without, without]
  refine List.filter_congr fun item _ => ?_
  simp [or_comm]

/-- Items that have none of the ids all stay. -/
theorem without_eq_self (ids : List Nat) {items : List Item} (h : ∀ item ∈ items, item.id ∉ ids) :
    without ids items = items := by
  rw [without, List.filter_eq_self]
  exact fun item hitem => decide_eq_true (h item hitem)

/-- An item that is put among others and then left out leaves no trace. -/
theorem without_insertIdx (item : Item) (index : Nat) {items : List Item}
    (others : ∀ other ∈ items, other.id ≠ item.id) :
    without [item.id] (items.insertIdx index item) = items := by
  induction items generalizing index with
  | nil => cases index <;> simp [without]
  | cons first rest ih =>
    obtain ⟨hfirst, hrest⟩ := List.forall_mem_cons.mp others
    cases index with
    | zero =>
      rw [List.insertIdx_zero, without, List.filter_cons_of_neg (by simp)]
      exact without_eq_self _ fun other hother => by simpa using others other hother
    | succ index =>
      rw [List.insertIdx_succ_cons, without, List.filter_cons_of_pos (by simpa using hfirst)]
      exact congrArg (first :: ·) (ih index hrest)

end Changes

section Patch

/-- The first step of a patch is made first, and its change comes first. -/
theorem patch_cons (p : Panel) (step : ListPatch.Step Report)
    (steps : List (ListPatch.Step Report)) : p.patch (step :: steps) =
      (((p.patchStep step).1.patch steps).1,
        (p.patchStep step).2 ++ ((p.patchStep step).1.patch steps).2) := rfl

/-- A host that makes the change of a step has the ids that the step leaves. -/
theorem replay?_patchStep {step : ListPatch.Step Report} (fits : step.fits p.items.length = true) :
    replay? (p.patchStep step).2 (p.items.map (·.id)) =
      some ((p.patchStep step).1.items.map (·.id)) := by
  cases step with
  | insert index r =>
    have hindex : index ≤ p.items.length := by simpa [ListPatch.Step.fits] using fits
    simp [replay?, patchStep, Change.replay?, hindex, List.map_insertIdx, Item.ofReport]
  | remove index =>
    have hindex : index < p.items.length := by simpa [ListPatch.Step.fits] using fits
    simp [replay?, patchStep_remove hindex, Change.replay?, hindex, List.eraseIdx_map]

/-- A host that makes the changes of a patch has the ids that the patch leaves. -/
theorem replay?_patch {reports : List Report}
    (h : ListPatch.make? steps (p.items.map (·.report)) = some reports) :
    replay? (p.patch steps).2 (p.items.map (·.id)) = some ((p.patch steps).1.items.map (·.id)) := by
  induction steps generalizing p with
  | nil => rfl
  | cons step rest ih =>
    obtain ⟨hfits, hrest⟩ := ListPatch.make?_cons_eq_some_iff.mp h
    rw [List.length_map] at hfits
    rw [← reports_patchStep] at hrest
    rw [patch_cons, replay?_append, replay?_patchStep hfits, Option.bind_some, ih hrest]

/-- A step gives out the next id or none. -/
theorem range_append_created_patchStep (p : Panel) (step : ListPatch.Step Report) :
    List.range p.nextId ++ created (p.patchStep step).2 =
      List.range (p.patchStep step).1.nextId := by
  cases step with
  | insert index r => exact List.range_succ.symm
  | remove index =>
    rw [patchStep]
    cases p.items[index]? with
    | none => exact List.append_nil _
    | some item => exact List.append_nil _

/-- A patch gives out the ids that come next, in order. -/
theorem range_append_created_patch (p : Panel) (steps : List (ListPatch.Step Report)) :
    List.range p.nextId ++ created (p.patch steps).2 = List.range (p.patch steps).1.nextId := by
  induction steps generalizing p with
  | nil => exact List.append_nil _
  | cons step rest ih =>
    rw [patch_cons, created_append, ← List.append_assoc, range_append_created_patchStep, ih]

/-- What a step does not take away is what it leaves, but for what it brings. -/
theorem without_patchStep (distinct : p.Distinct) (step : ListPatch.Step Report) :
    without (created (p.patchStep step).2) (p.patchStep step).1.items =
      without (discarded (p.patchStep step).2) p.items := by
  cases step with
  | insert index r =>
    have hfree : ∀ other ∈ p.items, other.id ≠ p.nextId := fun other hother =>
      Nat.ne_of_lt (distinct.below _ (List.mem_map_of_mem hother))
    rw [without_eq_self (discarded _) fun _ _ => List.not_mem_nil]
    exact without_insertIdx (.ofReport p.nextId r) index hfree
  | remove index =>
    by_cases hindex : index < p.items.length
    · have hids := (List.getElem_cons_eraseIdx_perm hindex).map (·.id)
      have hfree := (List.nodup_cons.mp (hids.nodup_iff.mpr distinct.nodup)).1
      have hothers : without [p.items[index].id] p.items = p.items.eraseIdx index := by
        have hback := without_insertIdx p.items[index] index fun other hother heq =>
          hfree (List.mem_map.mpr ⟨other, hother, heq⟩)
        rwa [List.insertIdx_eraseIdx_getElem hindex] at hback
      rw [patchStep_remove hindex, without_eq_self (created _) fun _ _ => List.not_mem_nil]
      exact hothers.symm
    · rw [patchStep, List.getElem?_eq_none (Nat.le_of_not_lt hindex)]
      rfl

/-- What a patch does not take away is what it leaves, in the same order, but for what it brings. -/
theorem without_patch (distinct : p.Distinct) (steps : List (ListPatch.Step Report)) :
    without (created (p.patch steps).2) (p.patch steps).1.items =
      without (discarded (p.patch steps).2) p.items := by
  induction steps generalizing p with
  | nil => rfl
  | cons step rest ih =>
    rw [patch_cons, created_append, discarded_append, without_append, without_append,
      without_comm, ih (distinct.patchStep step), without_comm, without_patchStep distinct step]

/-- An item that a step leaves was there before, or is new and not selected. -/
theorem mem_or_new_of_mem_patchStep {step : ListPatch.Step Report}
    (h : item ∈ (p.patchStep step).1.items) :
    item ∈ p.items ∨ (p.nextId ≤ item.id ∧ item.selected = false) := by
  rw [items_patchStep] at h
  cases step with
  | insert index r =>
    rcases List.eq_or_mem_of_mem_insertIdx h with rfl | hold
    · exact Or.inr ⟨Nat.le_refl _, rfl⟩
    · exact Or.inl hold
  | remove index => exact Or.inl (List.mem_of_mem_eraseIdx h)

/-- An item that a patch leaves was there before, or is new and not selected. -/
theorem mem_or_new_of_mem_patch (h : item ∈ (p.patch steps).1.items) :
    item ∈ p.items ∨ (p.nextId ≤ item.id ∧ item.selected = false) := by
  induction steps generalizing p with
  | nil => exact Or.inl h
  | cons step rest ih =>
    have hnext : p.nextId ≤ (p.patchStep step).1.nextId := by
      have hlength := congrArg List.length (range_append_created_patchStep p step)
      simp only [List.length_append, List.length_range] at hlength
      omega
    rw [patch_cons] at h
    rcases ih h with hstep | ⟨hid, hselected⟩
    · exact mem_or_new_of_mem_patchStep hstep
    · exact Or.inr ⟨Nat.le_trans hnext hid, hselected⟩

end Patch

section Marking

/-- At most one item being selected, the active id is that of any item that is. -/
theorem activeId_eq_some_iff (single : p.items.countP (·.selected) ≤ 1) {id : Nat} :
    p.activeId = some id ↔ ∃ item ∈ p.items, item.selected = true ∧ item.id = id := by
  rw [activeId, Option.map_eq_some_iff]
  constructor
  · rintro ⟨item, hfound, hid⟩
    exact ⟨item, List.mem_of_find?_eq_some hfound, List.find?_some hfound, hid⟩
  · rintro ⟨item, hitem, hselected, hid⟩
    obtain ⟨found, hfound⟩ := Option.isSome_iff_exists.mp
      (List.find?_isSome.mpr ⟨item, hitem, hselected⟩)
    have hone := List.mem_filter.mpr ⟨hitem, hselected⟩
    have hother := List.mem_filter.mpr ⟨List.mem_of_find?_eq_some hfound, List.find?_some hfound⟩
    rw [List.countP_eq_length_filter] at single
    obtain ⟨only, honly⟩ := List.length_eq_one_iff.mp
      (Nat.le_antisymm single (List.length_pos_of_mem hone))
    rw [honly, List.mem_singleton] at hone hother
    rw [← hone] at hother
    exact ⟨found, hfound, by rw [hother, hid]⟩

/-- After marking the active item is the first one of the report. -/
theorem map_id_find?_markSelected (selected : Option Report) (items : List Item) :
    ((markSelected selected items).find? (·.selected)).map (·.id) =
      (items.find? fun item => some item.report == selected).map (·.id) := by
  induction items with
  | nil => rfl
  | cons item rest ih =>
    rw [markSelected]
    split
    case isTrue h => simp [h]
    case isFalse h => simp [h, ih]

/-- An item of a patched panel is selected exactly if it was the active one. -/
theorem selected_iff_of_mem_patch (distinct : p.Distinct)
    (single : p.items.countP (·.selected) ≤ 1) (h : item ∈ (p.patch steps).1.items) :
    item.selected = true ↔ p.activeId = some item.id := by
  rw [activeId_eq_some_iff single]
  constructor
  · intro hselected
    rcases mem_or_new_of_mem_patch h with hold | ⟨-, hnot⟩
    · exact ⟨item, hold, hselected, rfl⟩
    · rw [hselected] at hnot
      contradiction
  · rintro ⟨active, hactive, hselected, hid⟩
    rcases mem_or_new_of_mem_patch h with hold | ⟨hnew, -⟩
    · rw [← List.inj_on_of_nodup_map distinct.nodup hactive hold hid]
      exact hselected
    · have hbelow := distinct.below _ (List.mem_map_of_mem hactive)
      omega

/-- An update names the active item as newly selected exactly if another one or none was active
before. -/
theorem newlySelected_sync (distinct : p.Distinct) (single : p.items.countP (·.selected) ≤ 1)
    (s : Store) : (p.sync s).2.newlySelected =
      (p.sync s).2.active.filter fun id => p.activeId ≠ some id := by
  let steps := ListPatch.between (p.items.map (·.report)) s.reports
  let wanted := s.selected.map (·.report)
  have hactive : (p.sync s).2.active =
      ((p.patch steps).1.items.find? fun item => some item.report == wanted).map (·.id) :=
    map_id_find?_markSelected wanted _
  have hnewly : (p.sync s).2.newlySelected = (((p.patch steps).1.items.find? fun item =>
      some item.report == wanted).filter (!·.selected)).map (·.id) := rfl
  rw [hactive, hnewly]
  cases hfound : (p.patch steps).1.items.find? fun item => some item.report == wanted with
  | none => rfl
  | some item =>
    have hiff := selected_iff_of_mem_patch distinct single (List.mem_of_find?_eq_some hfound)
    rw [Option.map_some, Option.filter_some, Option.filter_some]
    by_cases hselected : item.selected = true
    · simp [hselected, hiff.mp hselected]
    · simp [hselected, mt hiff.mpr hselected]

end Marking

/-- What holds of a panel and the updates that it has given so far, for a host that begins with an
empty list. -/
structure Followed (p : Panel) (updates : List Update) : Prop where
  distinct : p.Distinct
  single : p.items.countP (·.selected) ≤ 1
  replay : replay? (updates.flatMap (·.changes)) [] = some (p.items.map (·.id))
  ids : created (updates.flatMap (·.changes)) = List.range p.nextId
  active : lastActive updates = p.activeId

/-- In the beginning there is nothing to follow. -/
theorem followed_empty : Followed empty [] := ⟨distinct_empty, Nat.zero_le 1, rfl, rfl, rfl⟩

/-- A host that has followed a panel can follow it on. -/
theorem Followed.sync {updates : List Update} (followed : Followed p updates) (s : Store) :
    Followed (p.sync s).1 (updates ++ [(p.sync s).2]) where
  distinct := followed.distinct.sync s
  single := (shows_sync p s).single
  replay := by
    let steps := ListPatch.between (p.items.map (·.report)) s.reports
    have hids : (p.sync s).1.items.map (·.id) = (p.patch steps).1.items.map (·.id) :=
      map_markSelected _ (fun _ _ => rfl) _
    rw [List.flatMap_append, List.flatMap_singleton, replay?_append, followed.replay,
      Option.bind_some, hids]
    exact replay?_patch (ListPatch.make?_between _ _)
  ids := by
    rw [List.flatMap_append, List.flatMap_singleton, created_append, followed.ids]
    exact range_append_created_patch p _
  active := by
    rw [lastActive, List.getLast?_concat]
    rfl

/-- A panel is followed from when it is opened. -/
theorem followed_follow (first : Store) (later : List Store) :
    Followed (follow first later).1 (follow first later).2 := by
  induction later using List.reverseRecOn with
  | nil => exact followed_empty.sync first
  | append_singleton later s ih =>
    rw [follow, List.foldl_append]
    exact ih.sync s

/-- An update leaves what it does not remove as it is, in the same order and under the same ids,
but for the selection. -/
theorem without_sync (distinct : p.Distinct) (s : Store) :
    (without (created (p.sync s).2.changes) (p.sync s).1.items).map Item.unmarked =
      (without (discarded (p.sync s).2.changes) p.items).map Item.unmarked := by
  let steps := ListPatch.between (p.items.map (·.report)) s.reports
  have hmarked : (p.sync s).1.items.map Item.unmarked = (p.patch steps).1.items.map Item.unmarked :=
    map_markSelected _ (fun _ _ => rfl) _
  have hwithout (ids : List Nat) (items : List Item) : (without ids items).map Item.unmarked =
      without ids (items.map Item.unmarked) := by
    rw [without, without, List.filter_map]
    rfl
  rw [hwithout, hmarked, ← hwithout]
  exact congrArg (List.map Item.unmarked) (without_patch distinct steps)

/-- From when a panel is opened, whatever stores it is brought in line with: a host that begins with
an empty list and makes the changes of all updates in order, each of which it can make, has the ids
of the items in their order. No id is given out twice. At most one item is selected, and its id is
the active one of the last update. The next update leaves every item that it does not remove as it
is, under its id and in the same order, and newly selected is then the active item if it is not the
one that was active before. -/
theorem replayed_updates_give_items (first : Store) (later : List Store) :
    let p := (follow first later).1
    let updates := (follow first later).2
    let changes := updates.flatMap (·.changes)
    replay? changes [] = some (p.items.map (·.id)) ∧
      (created changes).Nodup ∧
      p.items.countP (·.selected) ≤ 1 ∧
      (∀ id, lastActive updates = some id ↔
        ∃ item ∈ p.items, item.selected = true ∧ item.id = id) ∧
      (opened first).2.newlySelected = (opened first).2.active ∧
      ∀ s, let next := p.sync s
        (without (created next.2.changes) next.1.items).map Item.unmarked =
          (without (discarded next.2.changes) p.items).map Item.unmarked ∧
        next.2.newlySelected = next.2.active.filter fun id => lastActive updates ≠ some id := by
  intro p updates changes
  have followed : Followed p updates := followed_follow first later
  have hopened : (opened first).2.newlySelected = (opened first).2.active := by
    rw [opened, newlySelected_sync distinct_empty (Nat.zero_le 1)]
    cases (empty.sync first).2.active with
    | none => rfl
    | some id => rfl
  refine ⟨followed.replay, ?_, followed.single, fun id => ?_, hopened, fun s => ⟨?_, ?_⟩⟩
  · rw [followed.ids]
    exact List.nodup_range
  · rw [followed.active, activeId_eq_some_iff followed.single]
  · exact without_sync followed.distinct s
  · rw [followed.active]
    exact newlySelected_sync followed.distinct followed.single s

end Marginalia.Panel
