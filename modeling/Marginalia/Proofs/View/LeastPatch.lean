import Mathlib.Data.List.Nodup
import Marginalia.Proofs.View.Panel

/-!
# Patches that do no more than they have to

The patch from one list to another walks the new list and never looks back, so it removes an
element that is still wanted if another one, wanted earlier, stands behind it in the old list. If
no element repeats and what the lists have in common stands in the same order in both, this does
not happen: what is in front of the next kept element is not wanted any more. The patch then
removes what is only in the old list, inserts what is only in the new one, and does nothing else,
and every list of steps that leads from the one list to the other has at least as many.
-/

namespace Marginalia

namespace ListPatch

variable {α : Type} {old new xs ys : List α} {x y : α} {step : Step α} {steps : List (Step α)}

/-- The element that a step inserts. -/
def Step.inserts? : Step α → Option α
  | .insert _ x => some x
  | .remove _ => none

/-- The element that a step removes from a list. -/
def Step.removes? (xs : List α) : Step α → Option α
  | .insert _ _ => none
  | .remove index => xs[index]?

/-- The elements that the steps of a patch insert. -/
def inserted (steps : List (Step α)) : List α := steps.filterMap Step.inserts?

/-- The elements that the steps of a patch remove, each from what the steps before it leave. -/
def removed : List (Step α) → List α → List α
  | [], _ => []
  | step :: rest, xs => (step.removes? xs).toList ++ removed rest (step.apply xs)

/-- What the lists have in common stands in the same order in both. -/
def Agree [DecidableEq α] (old new : List α) : Prop := old.filter (· ∈ new) = new.filter (· ∈ old)

instance [DecidableEq α] (old new : List α) : Decidable (Agree old new) :=
  inferInstanceAs (Decidable (old.filter (· ∈ new) = new.filter (· ∈ old)))

section Steps

/-- What is in the list after a step was there before, or was inserted. -/
theorem Step.mem_or_inserts (h : y ∈ step.apply xs) : y ∈ xs ∨ step.inserts? = some y := by
  cases step with
  | insert index x =>
    rcases List.eq_or_mem_of_mem_insertIdx h with rfl | hold
    · exact Or.inr rfl
    · exact Or.inl hold
  | remove index => exact Or.inl (List.mem_of_mem_eraseIdx h)

/-- What was in the list before a step is still there, or was removed. -/
theorem Step.mem_or_removes (step : Step α) (h : y ∈ xs) :
    y ∈ step.apply xs ∨ step.removes? xs = some y := by
  obtain ⟨i, hi⟩ := List.mem_iff_getElem?.mp h
  cases step with
  | insert index x =>
    by_cases hindex : index ≤ xs.length
    · exact Or.inl ((List.mem_insertIdx hindex).mpr (Or.inr h))
    · rw [Step.apply, List.insertIdx_of_length_lt (Nat.lt_of_not_le hindex)]
      exact Or.inl h
  | remove index =>
    by_cases hindex : i = index
    · exact Or.inr (hindex ▸ hi)
    · exact Or.inl (List.mem_eraseIdx_iff_getElem?.mpr ⟨i, hindex, hi⟩)

/-- A step inserts or removes at most one element. -/
theorem Step.length_inserts_add_removes_le (step : Step α) (xs : List α) :
    step.inserts?.toList.length + (step.removes? xs).toList.length ≤ 1 := by
  cases step with
  | insert index x => exact Nat.le_refl 1
  | remove index => cases hx : xs[index]? <;> simp [inserts?, removes?, hx]

/-- A step that fits inserts or removes one element. -/
theorem Step.length_inserts_add_removes (h : step.fits xs.length = true) :
    step.inserts?.toList.length + (step.removes? xs).toList.length = 1 := by
  cases step with
  | insert index x => rfl
  | remove index =>
    have hindex : index < xs.length := by simpa [Step.fits] using h
    simp [inserts?, removes?, hindex]

/-- What is in the list after a patch was there before, or was inserted. -/
theorem mem_or_mem_inserted (h : y ∈ apply steps xs) : y ∈ xs ∨ y ∈ inserted steps := by
  induction steps generalizing xs with
  | nil => exact Or.inl h
  | cons step rest ih =>
    rw [inserted, List.mem_filterMap]
    rcases ih h with hnext | hlater
    · rcases Step.mem_or_inserts hnext with hold | hinserts
      · exact Or.inl hold
      · exact Or.inr ⟨step, List.mem_cons_self, hinserts⟩
    · obtain ⟨later, hmem, hinserts⟩ := List.mem_filterMap.mp hlater
      exact Or.inr ⟨later, List.mem_cons_of_mem _ hmem, hinserts⟩

/-- What was in the list before a patch is still there, or was removed. -/
theorem mem_or_mem_removed (h : y ∈ xs) : y ∈ apply steps xs ∨ y ∈ removed steps xs := by
  induction steps generalizing xs with
  | nil => exact Or.inl h
  | cons step rest ih =>
    rw [removed, List.mem_append, Option.mem_toList]
    rcases step.mem_or_removes h with hnext | hremoves
    · exact (ih hnext).imp_right Or.inr
    · exact Or.inr (Or.inl hremoves)

/-- The first step inserts what it inserts, and the others the rest. -/
theorem inserted_cons (step : Step α) (rest : List (Step α)) :
    inserted (step :: rest) = step.inserts?.toList ++ inserted rest := by
  cases hstep : step.inserts? <;> simp [inserted, hstep]

/-- What the steps of two patches insert. -/
theorem inserted_append (steps more : List (Step α)) :
    inserted (steps ++ more) = inserted steps ++ inserted more := List.filterMap_append

/-- A patch has a step for every element that it inserts or removes. -/
theorem length_inserted_add_removed_le (steps : List (Step α)) (xs : List α) :
    (inserted steps).length + (removed steps xs).length ≤ steps.length := by
  induction steps generalizing xs with
  | nil => exact Nat.le_refl 0
  | cons step rest ih =>
    have hstep := step.length_inserts_add_removes_le xs
    have hrest := ih (step.apply xs)
    simp only [inserted_cons, removed, List.length_append, List.length_cons]
    omega

/-- A patch whose steps all fit has no other steps. -/
theorem length_inserted_add_removed (h : make? steps xs = some ys) :
    (inserted steps).length + (removed steps xs).length = steps.length := by
  induction steps generalizing xs with
  | nil => rfl
  | cons step rest ih =>
    obtain ⟨hfits, hrest⟩ := make?_cons_eq_some_iff.mp h
    have hone := Step.length_inserts_add_removes hfits
    have hothers := ih hrest
    simp only [inserted_cons, removed, List.length_append, List.length_cons]
    omega

/-- What the steps of two patches remove. -/
theorem removed_append (h : make? steps xs = some ys) (more : List (Step α)) :
    removed (steps ++ more) xs = removed steps xs ++ removed more ys := by
  induction steps generalizing xs with
  | nil =>
    obtain rfl := Option.some.inj h
    rfl
  | cons step rest ih =>
    have hrest := (make?_cons_eq_some_iff.mp h).2
    rw [List.cons_append, removed, removed, ih hrest, List.append_assoc]

end Steps

section Between

/-- Removals behind what is done remove the next elements. -/
theorem removed_replicate_remove (done skipped rest : List α) :
    removed (List.replicate skipped.length (.remove done.length)) (done ++ (skipped ++ rest)) =
      skipped := by
  induction skipped with
  | nil => rfl
  | cons x skipped ih =>
    have hnext := (Step.make?_eq_some_iff.mp (make?_remove done (skipped ++ rest) x)).2
    rw [List.length_cons, List.replicate_succ, removed, List.cons_append, hnext, ih]
    simp [Step.removes?]

/-- Removals from the back remove all that is not done, the last element first. -/
theorem removed_removeTail (done rest : List α) :
    removed (removeTail done.length rest.length) (done ++ rest) = rest.reverse := by
  induction rest using List.reverseRecOn with
  | nil => rfl
  | append_singleton rest x ih =>
    have hnext := (Step.make?_eq_some_iff.mp (make?_remove (done ++ rest) [] x)).2
    rw [List.append_nil, List.append_assoc] at hnext
    rw [removeTail_append_singleton, removed, hnext, ih]
    simp [Step.removes?]

/-- Removals insert nothing. -/
theorem inserted_replicate_remove (count index : Nat) :
    inserted (List.replicate count (.remove index : Step α)) = [] := by
  induction count with
  | zero => rfl
  | succ count ih => rw [List.replicate_succ, inserted_cons, ih]; rfl

/-- Removals from the back insert nothing. -/
theorem inserted_removeTail (index count : Nat) :
    inserted (removeTail index count : List (Step α)) = [] := by
  refine List.filterMap_eq_nil_iff.mpr fun step hstep => ?_
  rw [removeTail, List.mem_reverse, List.mem_map] at hstep
  obtain ⟨k, -, rfl⟩ := hstep
  rfl

/-- What stands behind an element of a list without repeated elements is wanted later if it is
wanted with the element. -/
theorem mem_new_iff {skipped rest : List α} (hold : (skipped ++ x :: rest).Nodup) (hy : y ∈ rest) :
    y ∈ x :: new ↔ y ∈ new := by
  have hx : x ∉ rest := (List.nodup_cons.mp (List.nodup_append.mp hold).2.1).1
  have hne : y ≠ x := fun heq => hx (heq ▸ hy)
  simp [hne]

variable [DecidableEq α]

/-- An element that is only in the new list does not matter for the order. -/
theorem Agree.of_fresh (h : Agree old (x :: new)) (hx : x ∉ old) : Agree old new := by
  have hold : old.filter (· ∈ x :: new) = old.filter (· ∈ new) := by
    refine List.filter_congr fun y hy => ?_
    have hne : y ≠ x := fun heq => hx (heq ▸ hy)
    simp [hne]
  rw [Agree, hold, List.filter_cons_of_neg (by simpa using hx)] at h
  exact h

/-- What stands in the old list in front of the first element of the new one is only there. -/
theorem Agree.notMem_of_skipped {skipped rest : List α}
    (h : Agree (skipped ++ x :: rest) (x :: new)) (hx : x ∉ skipped) :
    ∀ y ∈ skipped, y ∉ x :: new := by
  intro y hy hwanted
  rw [Agree, List.filter_append, List.filter_cons_of_pos (by simp)] at h
  cases hfront : skipped.filter (· ∈ x :: new) with
  | nil => exact (List.filter_eq_nil_iff.mp hfront y hy) (by simpa using hwanted)
  | cons z zs =>
    have hz : z ∈ skipped := (List.mem_filter.mp (hfront ▸ List.mem_cons_self)).1
    rw [hfront, List.filter_cons_of_pos (by simp), List.cons_append] at h
    exact hx ((List.cons.inj h).1 ▸ hz)

variable {skipped rest : List α}

/-- Of what is wanted later, the old list holds no more than what stands behind the first element
that is wanted. -/
theorem Agree.mem_old_iff (h : Agree (skipped ++ x :: rest) (x :: new)) (hx : x ∉ skipped)
    (hnew : (x :: new).Nodup) (hy : y ∈ new) : y ∈ skipped ++ x :: rest ↔ y ∈ rest := by
  have hskipped : y ∉ skipped := fun hmem =>
    h.notMem_of_skipped hx y hmem (List.mem_cons_of_mem x hy)
  have hne : y ≠ x := fun heq => (List.nodup_cons.mp hnew).1 (heq ▸ hy)
  simp [hskipped, hne]

/-- Behind an element that both lists hold, what they have in common is in the same order. -/
theorem Agree.of_kept (h : Agree (skipped ++ x :: rest) (x :: new)) (hx : x ∉ skipped)
    (hold : (skipped ++ x :: rest).Nodup) (hnew : (x :: new).Nodup) : Agree rest new := by
  have hfront : skipped.filter (· ∈ x :: new) = [] :=
    List.filter_eq_nil_iff.mpr fun y hy => by simpa using h.notMem_of_skipped hx y hy
  have htail : rest.filter (· ∈ x :: new) = new.filter (· ∈ skipped ++ x :: rest) := by
    rw [Agree, List.filter_append, hfront, List.nil_append, List.filter_cons_of_pos (by simp),
      List.filter_cons_of_pos (by simp)] at h
    exact (List.cons.inj h).2
  calc rest.filter (· ∈ new)
      = rest.filter (· ∈ x :: new) :=
        List.filter_congr fun y hy => by simp only [mem_new_iff hold hy]
    _ = new.filter (· ∈ skipped ++ x :: rest) := htail
    _ = new.filter (· ∈ rest) :=
        List.filter_congr fun y hy => by simp only [h.mem_old_iff hx hnew hy]

/-- The patch inserts what is only in the new list. -/
theorem inserted_betweenFrom (index : Nat) (h : Agree old new) (hold : old.Nodup)
    (hnew : new.Nodup) : inserted (betweenFrom index old new) = new.filter (· ∉ old) := by
  induction new generalizing index old with
  | nil => exact inserted_removeTail index old.length
  | cons x new ih =>
    rcases betweenFrom_cons_cases index old x new with
      ⟨hx, hpatch⟩ | ⟨skipped, rest, rfl, hx, hpatch⟩
    · rw [hpatch, inserted_cons, ih _ (h.of_fresh hx) hold hnew.of_cons,
        List.filter_cons_of_pos (by simpa using hx)]
      rfl
    · have hrest : rest.Nodup := (List.nodup_append.mp hold).2.1.of_cons
      rw [hpatch, inserted_append, inserted_replicate_remove, List.nil_append,
        ih _ (h.of_kept hx hold hnew) hrest hnew.of_cons, List.filter_cons_of_neg (by simp)]
      exact List.filter_congr fun y hy => by simp only [h.mem_old_iff hx hnew hy]

/-- The patch removes what is only in the old list. -/
theorem removed_betweenFrom (done : List α) (h : Agree old new) (hold : old.Nodup)
    (hnew : new.Nodup) :
    (removed (betweenFrom done.length old new) (done ++ old)).Perm (old.filter (· ∉ new)) := by
  induction new generalizing done old with
  | nil => simp [betweenFrom, removed_removeTail, List.reverse_perm]
  | cons x new ih =>
    have hnext : done.length + 1 = (done ++ [x]).length := by simp
    rcases betweenFrom_cons_cases done.length old x new with
      ⟨hx, hpatch⟩ | ⟨skipped, rest, rfl, hx, hpatch⟩
    · have hinsert := (Step.make?_eq_some_iff.mp (make?_insert done old x)).2
      have hsame : old.filter (· ∉ x :: new) = old.filter (· ∉ new) :=
        List.filter_congr fun y hy => by
          have hne : y ≠ x := fun heq => hx (heq ▸ hy)
          simp [hne]
      rw [hpatch, removed, hinsert, hsame, hnext, List.append_cons done x old]
      exact ih (done ++ [x]) (h.of_fresh hx) hold hnew.of_cons
    · have hrest : rest.Nodup := (List.nodup_append.mp hold).2.1.of_cons
      have hskipped : skipped.filter (· ∉ x :: new) = skipped :=
        List.filter_eq_self.mpr fun y hy => by simpa using h.notMem_of_skipped hx y hy
      have hbehind : (x :: rest).filter (· ∉ x :: new) = rest.filter (· ∉ new) := by
        rw [List.filter_cons_of_neg (by simp)]
        exact List.filter_congr fun y hy => by simp only [mem_new_iff hold hy]
      rw [hpatch, removed_append (make?_replicate_remove done skipped (x :: rest)),
        removed_replicate_remove, List.filter_append, hskipped, hbehind, hnext,
        List.append_cons done x rest]
      exact (ih (done ++ [x]) (h.of_kept hx hold hnew) hrest hnew.of_cons).append_left skipped

/-- The patch from one list to another inserts what is only in the new one. -/
theorem inserted_between (h : Agree old new) (hold : old.Nodup) (hnew : new.Nodup) :
    inserted (between old new) = new.filter (· ∉ old) := inserted_betweenFrom 0 h hold hnew

/-- The patch from one list to another removes what is only in the old one. -/
theorem removed_between (h : Agree old new) (hold : old.Nodup) (hnew : new.Nodup) :
    (removed (between old new) old).Perm (old.filter (· ∉ new)) :=
  removed_betweenFrom [] h hold hnew

/-- No list of steps that leads from the one list to the other is shorter than the patch. -/
theorem length_between_le (h : Agree old new) (hold : old.Nodup) (hnew : new.Nodup)
    (leads : apply steps old = new) : (between old new).length ≤ steps.length := by
  have hinserted : (inserted (between old new)).length ≤ (inserted steps).length := by
    rw [inserted_between h hold hnew]
    refine (hnew.filter _).length_le_of_subset fun y hy => ?_
    obtain ⟨hwanted, hfresh⟩ := List.mem_filter.mp hy
    exact (mem_or_mem_inserted (leads ▸ hwanted)).resolve_left (by simpa using hfresh)
  have hremoved : (removed (between old new) old).length ≤ (removed steps old).length := by
    rw [(removed_between h hold hnew).length_eq]
    refine (hold.filter _).length_le_of_subset fun y hy => ?_
    obtain ⟨hlisted, hgone⟩ := List.mem_filter.mp hy
    exact (mem_or_mem_removed hlisted).resolve_left (by simpa [leads] using hgone)
  calc (between old new).length
      = (inserted (between old new)).length + (removed (between old new) old).length :=
        (length_inserted_add_removed (make?_between old new)).symm
    _ ≤ (inserted steps).length + (removed steps old).length := Nat.add_le_add hinserted hremoved
    _ ≤ steps.length := length_inserted_add_removed_le steps old

end Between

end ListPatch

namespace Panel

open ListPatch

variable {p : Panel} {item : Item} {steps : List (ListPatch.Step Report)}

/-- An item stays at a step that does not remove its report. -/
theorem mem_items_patchStep {step : ListPatch.Step Report} (h : item ∈ p.items)
    (hkept : step.removes? (p.items.map (·.report)) ≠ some item.report) :
    item ∈ (p.patchStep step).1.items := by
  rw [items_patchStep]
  refine ((p.itemStep step).mem_or_removes h).resolve_right fun hgone => hkept ?_
  cases step with
  | insert index r => simp [itemStep, Step.removes?] at hgone
  | remove index =>
    change p.items[index]? = some item at hgone
    simp [Step.removes?, hgone]

/-- An item stays if no step of a patch removes its report. -/
theorem mem_items_patch (h : item ∈ p.items)
    (hkept : item.report ∉ removed steps (p.items.map (·.report))) :
    item ∈ (p.patch steps).1.items := by
  induction steps generalizing p with
  | nil => exact h
  | cons step rest ih =>
    rw [removed, List.mem_append, not_or, Option.mem_toList, ← reports_patchStep] at hkept
    exact ih (mem_items_patchStep h hkept.1) hkept.2

/-- Bringing a panel in line with a store leaves an item whose report is not removed with its
id. -/
theorem exists_mem_items_sync {s : Store} (h : item ∈ p.items)
    (hkept : item.report ∉ removed (between (p.items.map (·.report)) s.reports)
      (p.items.map (·.report))) :
    ∃ kept ∈ (p.sync s).1.items, kept.id = item.id ∧ kept.report = item.report := by
  let patched := (p.patch (between (p.items.map (·.report)) s.reports)).1.items
  have hmarked : (p.sync s).1.items.map (fun item => (item.id, item.report)) =
      patched.map fun item => (item.id, item.report) :=
    map_markSelected _ (fun _ _ => rfl) patched
  have hmem : (item.id, item.report) ∈ patched.map fun item => (item.id, item.report) :=
    List.mem_map_of_mem (mem_items_patch h hkept)
  rw [← hmarked] at hmem
  obtain ⟨kept, hitem, heq⟩ := List.mem_map.mp hmem
  exact ⟨kept, hitem, (Prod.mk.inj heq).1, (Prod.mk.inj heq).2⟩

/-- If no report repeats, and those that stay are in the same order before and after, the patch
removes each report that goes and inserts each one that comes, once, and does nothing else. No
report that stays is removed or inserted again, its item keeps its id, and no list of steps that
leads from the old reports to the new ones is shorter. -/
theorem sync_does_least {old new : List Report} (hold : old.Nodup) (hnew : new.Nodup)
    (agree : Agree old new) :
    (removed (between old new) old).Perm (old.filter (· ∉ new)) ∧
      inserted (between old new) = new.filter (· ∉ old) ∧
      (between old new).length = (old.filter (· ∉ new)).length + (new.filter (· ∉ old)).length ∧
      (∀ r ∈ old, r ∈ new → r ∉ removed (between old new) old ∧ r ∉ inserted (between old new)) ∧
      (∀ steps, apply steps old = new → (between old new).length ≤ steps.length) ∧
      ∀ (p : Panel) (s : Store), p.items.map (·.report) = old → s.reports = new →
        ∀ item ∈ p.items, item.report ∈ new →
          ∃ kept ∈ (p.sync s).1.items, kept.id = item.id ∧ kept.report = item.report := by
  have hremoved := removed_between agree hold hnew
  have hinserted := inserted_between agree hold hnew
  have hstays : ∀ r ∈ new, r ∉ removed (between old new) old := fun r hr hgone => by
    simpa [hr] using (hremoved.mem_iff.mp hgone)
  refine ⟨hremoved, hinserted, ?_, fun r hr hr' => ⟨hstays r hr', ?_⟩,
    fun steps => length_between_le agree hold hnew, ?_⟩
  · rw [← hremoved.length_eq, ← hinserted, Nat.add_comm]
    exact (length_inserted_add_removed (make?_between old new)).symm
  · simp [hinserted, hr]
  · rintro p s rfl rfl item hitem hwanted
    exact exists_mem_items_sync hitem (hstays item.report hwanted)

/-- Two reports go and two come around one that stays, in a panel that lists three. -/
theorem sync_does_least_around_one :
    let r (n : Nat) : Report := ⟨.error ⟨"main", ⟨n, n + 1⟩⟩ "wrong", .host n⟩
    let p : Panel := ⟨[⟨4, r 0, [], false⟩, ⟨7, r 1, [], true⟩, ⟨5, r 2, [], false⟩], 8⟩
    let s : Store := ⟨[3, 1, 4].map fun n => ⟨⟨n, n + 1⟩, .mark, r n⟩, none, true, 0⟩
    [r 0, r 1, r 2].Nodup ∧ [r 3, r 1, r 4].Nodup ∧ Agree [r 0, r 1, r 2] [r 3, r 1, r 4] ∧
      (between [r 0, r 1, r 2] [r 3, r 1, r 4]).length = 4 ∧
      ∃ kept ∈ (p.sync s).1.items, kept.id = 7 ∧ kept.report = r 1 := by
  intro r p s
  have hold : [r 0, r 1, r 2].Nodup := by decide
  have hnew : [r 3, r 1, r 4].Nodup := by decide
  have agree : Agree [r 0, r 1, r 2] [r 3, r 1, r 4] := by decide
  obtain ⟨-, -, hlength, -, -, hitems⟩ := sync_does_least hold hnew agree
  exact ⟨hold, hnew, agree, hlength,
    hitems p s rfl rfl ⟨7, r 1, [], true⟩ (by simp [p]) (by simp)⟩

end Panel

end Marginalia
