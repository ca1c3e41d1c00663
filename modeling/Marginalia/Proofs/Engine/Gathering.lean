import Marginalia.Engine.Basic

/-!
# Gathering in any order

The sources of a run answer in any order, some of them more than once, and an index may come in
that names no source. What is there in the end is the first answer of each source and nothing
else: an answer fills the slot of its source if the slot is empty, and does nothing otherwise. So
neither when the results of a run are complete nor what the engine makes of them depends on the
order in which the sources have answered.
-/

namespace Marginalia

namespace Gather

variable {α : Type} {g : Gather α} {sources : Nat} {answers : List (Nat × α)} {results : List α}

/-- Take answers as they come in, each with the index of its source. -/
def resolveAll (g : Gather α) (answers : List (Nat × α)) : Gather α :=
  answers.foldl (fun g answer => (g.resolve answer.1 answer.2).1) g

/-- The first answer of each source in the order of the sources, where there is one. -/
def firsts (sources : Nat) (answers : List (Nat × α)) : List (Option α) :=
  (List.range sources).map (answers.lookup ·)

/-- The first of several answers is taken first. -/
theorem resolveAll_cons (g : Gather α) (answer : Nat × α) (rest : List (Nat × α)) :
    g.resolveAll (answer :: rest) = (g.resolve answer.1 answer.2).1.resolveAll rest :=
  List.foldl_cons ..

/-- An answer fills the slot of its source if that is empty, and leaves all other slots. -/
theorem getElem?_slots_resolve (g : Gather α) (index : Nat) (result : α) (i : Nat) :
    (g.resolve index result).1.slots[i]? =
      g.slots[i]?.map (·.or (if i = index then some result else none)) := by
  by_cases hi : i = index
  · rw [if_pos hi, resolve, hi]
    split
    case h_1 hempty =>
      have hlt : index < g.slots.length := (List.getElem?_eq_some_iff.mp hempty).1
      rw [List.getElem?_set_self hlt, hempty]
      rfl
    case h_2 hfull =>
      cases hslot : g.slots[index]? with
      | none => rfl
      | some slot =>
        cases slot with
        | none => exact absurd hslot hfull
        | some answer => rfl
  · have hkept : (g.resolve index result).1.slots[i]? = g.slots[i]? := by
      rw [resolve]
      split
      case h_1 => exact List.getElem?_set_ne (Ne.symm hi)
      case h_2 => rfl
    simp [hkept, hi]

/-- After any answers, a slot that was empty holds the first answer of its source. -/
theorem getElem?_slots_resolveAll (g : Gather α) (answers : List (Nat × α)) (i : Nat) :
    (g.resolveAll answers).slots[i]? = g.slots[i]?.map (·.or (answers.lookup i)) := by
  induction answers generalizing g with
  | nil => simp [resolveAll]
  | cons answer rest ih =>
    rw [resolveAll_cons, ih, getElem?_slots_resolve, Option.map_map, List.lookup_cons]
    by_cases hi : i = answer.1
    · simp [hi, Function.comp_def]
    · simp [hi, Function.comp_def, beq_eq_false_iff_ne.mpr hi]

/-- No answer changes the ticket. -/
theorem ticket_resolveAll (g : Gather α) (answers : List (Nat × α)) :
    (g.resolveAll answers).ticket = g.ticket := by
  induction answers generalizing g with
  | nil => rfl
  | cons answer rest ih =>
    rw [resolveAll_cons, ih, resolve]
    split <;> rfl

/-- What has been gathered is the first answer of each source. -/
theorem resolveAll_ofSources (ticket : Ticket) (sources : Nat) (answers : List (Nat × α)) :
    (ofSources ticket sources).resolveAll answers = ⟨ticket, firsts sources answers⟩ := by
  have hslots : ((ofSources ticket sources).resolveAll answers).slots = firsts sources answers := by
    refine List.ext_getElem? fun i => ?_
    rw [getElem?_slots_resolveAll, ofSources, firsts, List.getElem?_map]
    by_cases hi : i < sources
    · simp [hi]
    · simp [hi]
  have hticket : ((ofSources ticket sources).resolveAll answers).ticket = ticket :=
    ticket_resolveAll _ answers
  calc (ofSources ticket sources).resolveAll answers
      = ⟨((ofSources ticket sources).resolveAll answers).ticket,
          ((ofSources ticket sources).resolveAll answers).slots⟩ := rfl
    _ = ⟨ticket, firsts sources answers⟩ := by rw [hticket, hslots]

/-- All sources have answered exactly if no slot is empty. -/
theorem isComplete_iff : g.isComplete = true ↔ ∀ slot ∈ g.slots, slot.isSome = true := by
  simp [isComplete, outstanding, List.countP_eq_zero, Option.isSome_iff_ne_none]

/-- Slots hold results exactly if none is empty. -/
theorem exists_eq_map_some_iff {slots : List (Option α)} :
    (∃ results : List α, slots = results.map some) ↔ ∀ slot ∈ slots, slot.isSome = true := by
  induction slots with
  | nil => simp
  | cons slot rest ih =>
    rw [List.forall_mem_cons, ← ih]
    constructor
    · rintro ⟨results, h⟩
      obtain ⟨answer, given, -, rfl, hgiven⟩ := List.map_eq_cons_iff.mp h.symm
      exact ⟨rfl, given, hgiven.symm⟩
    · rintro ⟨hslot, given, rfl⟩
      obtain ⟨answer, rfl⟩ := Option.isSome_iff_exists.mp hslot
      exact ⟨answer :: given, rfl⟩

/-- Each source has answered exactly if no first answer is missing. -/
theorem forall_firsts_isSome_iff : (∀ slot ∈ firsts sources answers, slot.isSome = true) ↔
    ∀ i < sources, ∃ result, (i, result) ∈ answers := by
  simp only [firsts, List.forall_mem_map, List.mem_range, List.lookup_isSome_iff, beq_iff_eq]
  refine forall₂_congr fun i _ => ⟨?_, ?_⟩
  · rintro ⟨answer, hanswer, rfl⟩
    exact ⟨answer.2, hanswer⟩
  · rintro ⟨result, hresult⟩
    exact ⟨(i, result), hresult, rfl⟩

/-- The results are there exactly if every slot holds one, and then in the order of the slots. -/
theorem results?_eq_some_iff : g.results? = some results ↔ g.slots = results.map some := by
  have hread : ∀ given : List α, (given.map some).filterMap id = given := by simp
  rw [results?]
  split
  case isTrue hcomplete =>
    obtain ⟨given, hgiven⟩ := exists_eq_map_some_iff.mpr (isComplete_iff.mp hcomplete)
    rw [hgiven, hread, Option.some.injEq, List.map_inj_right fun _ _ => Option.some.inj]
  case isFalse hmissing =>
    refine ⟨nofun, fun h => absurd (isComplete_iff.mpr ?_) hmissing⟩
    exact exists_eq_map_some_iff.mp ⟨results, h⟩

/-- What is handed in are the results, if they are there. -/
theorem handIn_eq_ok_iff : g.handIn = .ok results ↔ g.slots = results.map some := by
  rw [← results?_eq_some_iff, handIn]
  split
  case h_1 given hgiven => simp [hgiven]
  case h_2 hmissing => simp [hmissing]

/-- What is handed back, if results are missing, is all that has been gathered. -/
theorem eq_of_handIn_eq_error {back : Gather α} (h : g.handIn = .error back) :
    back = g ∧ g.results? = none := by
  unfold handIn at h
  split at h
  case h_1 => simp at h
  case h_2 hmissing => exact ⟨(Except.error.inj h).symm, hmissing⟩

/-- What has been gathered depends on nothing but the first answer of each source. -/
theorem resolveAll_congr (ticket : Ticket) {others : List (Nat × α)}
    (same : ∀ i < sources, answers.lookup i = others.lookup i) :
    (ofSources ticket sources).resolveAll answers =
      (ofSources ticket sources).resolveAll others := by
  have hfirsts : firsts sources answers = firsts sources others :=
    List.map_congr_left fun i hi => same i (List.mem_range.mp hi)
  rw [resolveAll_ofSources, resolveAll_ofSources, hfirsts]

end Gather

namespace Engine

variable {en : Engine} {g : Gather Batch}

/-- Results that are all there are taken as the results of the run. -/
theorem completeGathered_of_handIn {batches : List Batch} (h : g.handIn = .ok batches) :
    en.completeGathered g =
      (en.complete g.ticket batches).map fun (en, verdict) => (en, some verdict) := by
  rw [Gather.handIn_eq_ok_iff, ← Gather.results?_eq_some_iff] at h
  rw [completeGathered, h]

/-- As long as results are missing, the engine takes none. -/
theorem completeGathered_of_missing (h : g.results? = none) :
    en.completeGathered g = .ok (en, none) := by
  rw [completeGathered, h]

/-- It does not matter in which order the sources of a run answer, nor what comes in again or from
no source. The results are given out exactly if every source has answered, and they are the first
answers in the order of the sources; else what has been gathered is handed back as it is. The
engine takes the results as those of the run, and comes out the same, and takes none before they
are all there. -/
theorem gathering_ignores_arrival (ticket : Ticket) (sources : Nat) :
    (∀ {α : Type} (answers others : List (Nat × α)),
      (∀ i < sources, answers.lookup i = others.lookup i) →
      let g := (Gather.ofSources ticket sources).resolveAll answers
      let g' := (Gather.ofSources ticket sources).resolveAll others
      g.outstanding = g'.outstanding ∧ g.isComplete = g'.isComplete ∧
      ((∃ results, g.handIn = .ok results) ↔ ∀ i < sources, ∃ result, (i, result) ∈ answers) ∧
      (∀ results, g.handIn = .ok results →
        results.map some = Gather.firsts sources answers ∧ g'.handIn = .ok results) ∧
      ∀ back, g.handIn = .error back → back = g ∧ g'.handIn = .error g') ∧
    ∀ (en : Engine) (answers others : List (Nat × Batch)),
      (∀ i < sources, answers.lookup i = others.lookup i) →
      let g := (Gather.ofSources ticket sources).resolveAll answers
      let g' := (Gather.ofSources ticket sources).resolveAll others
      en.completeGathered g = en.completeGathered g' ∧
      (∀ batches, g.handIn = .ok batches → en.completeGathered g =
        (en.complete ticket batches).map fun (en, verdict) => (en, some verdict)) ∧
      ∀ back, g.handIn = .error back → en.completeGathered g = .ok (en, none) := by
  refine ⟨fun answers others same => ?_, fun en answers others same => ?_⟩
  · intro g g'
    have hsame : g = g' := Gather.resolveAll_congr ticket same
    have hslots : g.slots = Gather.firsts sources answers :=
      congrArg Gather.slots (Gather.resolveAll_ofSources ticket sources answers)
    refine ⟨by rw [hsame], by rw [hsame], ?_, fun results hresults => ?_, fun back hback => ?_⟩
    · simp only [Gather.handIn_eq_ok_iff, Gather.exists_eq_map_some_iff, hslots,
        Gather.forall_firsts_isSome_iff]
    · rw [← hsame]
      exact ⟨((Gather.handIn_eq_ok_iff.mp hresults).symm.trans hslots), hresults⟩
    · obtain ⟨rfl, -⟩ := Gather.eq_of_handIn_eq_error hback
      exact ⟨rfl, hsame ▸ hback⟩
  · intro g g'
    have hsame : g = g' := Gather.resolveAll_congr ticket same
    have hticket : g.ticket = ticket := Gather.ticket_resolveAll _ answers
    refine ⟨by rw [hsame], fun batches hbatches => ?_, fun back hback => ?_⟩
    · rw [completeGathered_of_handIn hbatches, hticket]
    · exact completeGathered_of_missing (Gather.eq_of_handIn_eq_error hback).2

/-- Two sources in either order, where one answers twice and an index names no source. -/
theorem gathering_ignores_arrival_of_two :
    let found : Batch := ⟨[⟨.error ⟨"main", ⟨0, 1⟩⟩ "found", .host 0⟩], 0⟩
    let late : Batch := ⟨[⟨.error ⟨"main", ⟨1, 2⟩⟩ "late", .host 1⟩], 0⟩
    let answers := [(1, found), (7, late), (0, .empty), (1, late)]
    let others := [(0, .empty), (1, found)]
    let en : Engine := attach (.ofText "main" ['a', 'b']) .standard 0
    (∀ i < 2, answers.lookup i = others.lookup i) ∧
      ((Gather.ofSources ⟨1, 0⟩ 2).resolveAll others).handIn = .ok [.empty, found] ∧
      en.completeGathered ((Gather.ofSources ⟨1, 0⟩ 2).resolveAll answers) =
        en.completeGathered ((Gather.ofSources ⟨1, 0⟩ 2).resolveAll others) := by
  intro found late answers others en
  have same : ∀ i < 2, answers.lookup i = others.lookup i := by decide
  obtain ⟨hgathered, hengine⟩ := gathering_ignores_arrival ⟨1, 0⟩ 2
  obtain ⟨-, -, -, hresults, -⟩ := hgathered answers others same
  exact ⟨same, (hresults [.empty, found] rfl).2, (hengine en answers others same).1⟩

end Engine

end Marginalia
