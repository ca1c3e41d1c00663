import Marginalia.Proofs.Edit.Image
import Marginalia.Store.Navigation
import Marginalia.Store.Update

/-!
# Sound stores

A store is sound for a text when its annotations ascend, each stands in the text as its kind
asks, and the selection is one of the annotations. This says more than the check of a store,
which lets marks be empty and a selection be anywhere. Edits that fit keep a store sound, and so
does every effect except a selection of what the store does not hold. A transaction whose
selections are all of annotations then passes the check.
-/

namespace Marginalia

namespace Transaction

variable {t : Transaction} {e : Edit}

/-- The change is the edit if that has a pass. -/
theorem change_eq_some_iff : t.change = some e ↔ t.edit = some e ∧ e.isEmpty = false := by
  rw [change, Option.filter_eq_some_iff, Bool.not_eq_true']

/-- An edit with a pass is a change. -/
theorem change_eq_some (h : t.edit = some e) (changes : e.isEmpty = false) :
    t.change = some e := change_eq_some_iff.mpr ⟨h, changes⟩

/-- An edit without passes is no change. -/
theorem change_eq_none (h : t.edit = some e) (idle : e.isEmpty = true) : t.change = none := by
  rw [change, h, Option.filter_some_neg (by simp [idle])]

end Transaction

namespace Annotation

/-- An annotation in a text of `length` characters as its kind asks: a mark covers characters, a
point has no width. -/
structure Stands (a : Annotation) (length : Nat) : Prop where
  inside : a.extent.stop ≤ length
  wide : a.kind = .mark → a.extent.start < a.extent.stop
  narrow : a.kind = .point → a.extent.start = a.extent.stop

/-- An annotation that stands starts before it stops, or there. -/
theorem Stands.start_le_stop {a : Annotation} {length : Nat} (h : a.Stands length) :
    a.extent.start ≤ a.extent.stop := by
  cases hkind : a.kind with
  | mark => exact Nat.le_of_lt (h.wide hkind)
  | point => exact Nat.le_of_eq (h.narrow hkind)

/-- Reports are annotated so that the annotation stands. -/
theorem stands_of_ofReport? {doc : Document} {r : Report} {a : Annotation}
    (h : ofReport? doc r = some a) : a.Stands doc.length := by
  unfold ofReport? at h
  dsimp only at h
  split at h
  case isTrue => simp at h
  case isFalse hfits =>
    simp only [Bool.or_eq_true, decide_eq_true_eq, not_or, Nat.not_lt] at hfits
    split at h
    case isTrue =>
      obtain rfl := Option.some.inj h
      exact ⟨Nat.le_trans hfits.1 hfits.2, nofun, fun _ => rfl⟩
    case isFalse hwide =>
      obtain rfl := Option.some.inj h
      refine ⟨hfits.2, fun _ => Nat.lt_of_le_of_ne hfits.1 fun hempty => hwide ?_, nofun⟩
      rw [isPointSpan, Bool.or_eq_true, Extent.isEmpty, beq_iff_eq]
      exact Or.inl hempty

/-- Placed annotations stand. -/
theorem stands_of_mem_place {doc : Document} {reports : List Report} {a : Annotation}
    (h : a ∈ place doc reports) : a.Stands doc.length := by
  have hmem := (sortByExtent_perm _ _).mem_iff.mp h
  obtain ⟨r, -, hplaced⟩ := List.mem_filterMap.mp hmem
  exact stands_of_ofReport? hplaced

/-- An edit carries a mark to the images of its ends, unless they close up. -/
theorem carry?_of_mark {e : Edit} {a : Annotation} (h : a.kind = .mark) :
    a.carry? e = if e.image .after a.extent.start < e.image .before a.extent.stop then
      some { a with extent := ⟨e.image .after a.extent.start, e.image .before a.extent.stop⟩ }
    else none := by
  rw [carry?, h]

/-- An edit carries a point to the image of its place, unless that is lost. -/
theorem carry?_of_point {e : Edit} {a : Annotation} (h : a.kind = .point) :
    a.carry? e = (e.image? .before a.extent.start).map fun offset =>
      { a with extent := .point offset } := by
  rw [carry?, h]

/-- An edit changes nothing of an annotation that it carries but its extent. -/
theorem exists_eq_of_carry? {e : Edit} {a b : Annotation} (h : a.carry? e = some b) :
    ∃ extent, b = { a with extent := extent } := by
  unfold carry? at h
  split at h
  · obtain ⟨offset, -, rfl⟩ := Option.map_eq_some_iff.mp h
    exact ⟨_, rfl⟩
  · exact ⟨_, (Option.some.inj (Option.ite_none_right_eq_some.mp h).2).symm⟩

/-- An edit carries an annotation of the text to where it stands. -/
theorem stands_of_carry? {e : Edit} {a b : Annotation} (formed : e.WellFormed)
    (inside : a.extent.start ≤ a.extent.stop ∧ a.extent.stop ≤ e.lengthBefore)
    (carried : a.carry? e = some b) : b.Stands e.lengthAfter := by
  cases hkind : a.kind with
  | mark =>
    rw [carry?_of_mark hkind] at carried
    split at carried
    case isTrue hopen =>
      obtain rfl := Option.some.inj carried
      refine ⟨Edit.image_le_lengthAfter formed inside.2 .before, fun _ => hopen, fun hpoint => ?_⟩
      rw [hkind] at hpoint
      contradiction
    case isFalse => simp at carried
  | point =>
    rw [carry?_of_point hkind] at carried
    obtain ⟨offset, himage, rfl⟩ := Option.map_eq_some_iff.mp carried
    have hstart := Nat.le_trans inside.1 inside.2
    have hle := Edit.image_le_lengthAfter formed hstart .before
    rw [Edit.image_eq_of_image? himage] at hle
    refine ⟨hle, fun hmark => ?_, fun _ => rfl⟩
    rw [hkind] at hmark
    contradiction

/-- Carried annotations stand. -/
theorem stands_of_mem_carryAll {e : Edit} {annotations : List Annotation} {b : Annotation}
    (formed : e.WellFormed) (inside : ∀ a ∈ annotations,
      a.extent.start ≤ a.extent.stop ∧ a.extent.stop ≤ e.lengthBefore)
    (hb : b ∈ carryAll e annotations) : b.Stands e.lengthAfter := by
  have hmem := (sortByExtent_perm _ _).mem_iff.mp hb
  obtain ⟨a, ha, carried⟩ := List.mem_filterMap.mp hmem
  exact stands_of_carry? formed (inside a ha) carried

end Annotation

namespace Store

open Annotation (stands_of_mem_place carry?_of_mark carry?_of_point)

/-- The selection is of one of the annotations, at its place. -/
def Among (annotations : List Annotation) (selection : Selection) : Prop :=
  ∃ a ∈ annotations, selectionOf a = selection

/-- What a store of a text of `length` characters is at every time. -/
structure Sound (s : Store) (length : Nat) : Prop where
  ascends : s.annotations.Pairwise fun a b => a.extent ≤ b.extent
  stands : ∀ a ∈ s.annotations, a.Stands length
  chosen : ∀ selection, s.selected = some selection → Among s.annotations selection

/-- The store can be asked for the effect: what it selects is one of the annotations. -/
def Offers (s : Store) : Effect → Prop
  | .select selection => Among s.annotations selection
  | .setReports _ _ | .setPanel _ => True

/-- The store can be asked for each effect once the effects before it are done. -/
def OffersEach (doc : Document) : Store → List Effect → Prop
  | _, [] => True
  | s, effect :: rest => s.Offers effect ∧ OffersEach doc (s.perform doc effect) rest

/-- The store after the edit of a transaction, before its effects. -/
def edited (s : Store) (t : Transaction) : Store :=
  match t.change with
  | some e => s.carry e
  | none => s

variable {s : Store} {doc : Document} {length : Nat} {annotations : List Annotation}
  {selection : Selection}

/-- The empty store is sound. -/
theorem sound_empty (length : Nat) : empty.Sound length := ⟨List.Pairwise.nil, nofun, nofun⟩

/-- A sound store passes the check. -/
theorem Sound.valid (h : s.Sound length) : s.Valid length where
  ascends := h.ascends
  inside := fun a ha => ⟨(h.stands a ha).start_le_stop, (h.stands a ha).inside⟩
  narrow := fun a ha => (h.stands a ha).narrow
  held := by
    intro selection hselected
    obtain ⟨a, ha, rfl⟩ := h.chosen selection hselected
    exact List.mem_map_of_mem ha

/-- Looking up finds a selection among the annotations. -/
theorem among_of_firstFrom {report : Option Report} {offset : Nat}
    (h : firstFrom annotations report offset = some selection) : Among annotations selection := by
  obtain ⟨a, hfound, rfl⟩ := Option.map_eq_some_iff.mp h
  exact ⟨a, List.mem_of_find?_eq_some hfound, rfl⟩

/-- Going forward ends at one of the annotations. -/
theorem mem_of_following {cursor : Extent} {a : Annotation}
    (h : following annotations cursor = some a) : a ∈ annotations := by
  rw [following, Option.orElse_eq_or, Option.or_eq_some_iff] at h
  rcases h with h | ⟨-, h⟩
  · exact List.mem_of_find?_eq_some h
  · exact List.mem_of_head? (Option.eq_some_of_filter_eq_some h)

/-- What going forward selects is one of the annotations. -/
theorem among_of_following {cursor : Extent}
    (h : (following annotations cursor).map selectionOf = some selection) :
    Among annotations selection := by
  obtain ⟨a, ha, rfl⟩ := Option.map_eq_some_iff.mp h
  exact ⟨a, mem_of_following ha, rfl⟩

/-- Going backward ends at one of the annotations. -/
theorem among_of_preceding {cursor : Extent}
    (h : (preceding annotations cursor).map selectionOf = some selection) :
    Among annotations selection := by
  obtain ⟨a, ha, rfl⟩ := Option.map_eq_some_iff.mp h
  rw [preceding, Option.orElse_eq_or, Option.or_eq_some_iff] at ha
  refine ⟨a, ?_, rfl⟩
  rcases ha with ha | ⟨-, ha⟩
  · exact List.mem_reverse.mp (List.mem_of_find?_eq_some ha)
  · exact List.mem_of_getLast? (Option.eq_some_of_filter_eq_some ha)

/-- With an edit the selection stays among the annotations. -/
theorem among_of_carrySelection {e : Edit} {old : Selection}
    (h : carrySelection e annotations old = some selection) : Among annotations selection := by
  rw [carrySelection, Option.orElse_eq_or, Option.or_eq_some_iff] at h
  rcases h with h | ⟨-, h⟩ <;> exact among_of_firstFrom h

/-- Every rule chooses among the annotations. -/
theorem among_of_choose {old : Option Selection} {rule : SelectionRule}
    (h : choose old annotations rule = some selection) : Among annotations selection := by
  cases rule with
  | first =>
    rw [choose] at h
    exact among_of_firstFrom h
  | preserve r =>
    rw [choose, Option.orElse_eq_or, Option.or_eq_some_iff] at h
    rcases h with h | ⟨-, h⟩ <;> exact among_of_firstFrom h
  | samePlace =>
    rw [choose, Option.orElse_eq_or, Option.or_eq_some_iff] at h
    rcases h with h | ⟨-, h⟩
    · obtain ⟨before, -, h⟩ := Option.bind_eq_some_iff.mp h
      rw [Option.orElse_eq_or, Option.or_eq_some_iff] at h
      rcases h with h | ⟨-, h⟩
      · obtain ⟨a, hfound, rfl⟩ := Option.map_eq_some_iff.mp h
        exact ⟨a, List.mem_of_find?_eq_some hfound, rfl⟩
      · exact among_of_firstFrom h
    · exact among_of_firstFrom h

/-- An edit that fits leaves a sound store when the annotations lie in the text, wherever the
selection was. -/
theorem sound_carry {e : Edit} (formed : e.WellFormed) (inside : ∀ a ∈ s.annotations,
      a.extent.start ≤ a.extent.stop ∧ a.extent.stop ≤ e.lengthBefore) :
    (s.carry e).Sound e.lengthAfter where
  ascends := sortByExtent_pairwise _ _
  stands := fun _ hb => Annotation.stands_of_mem_carryAll formed inside hb
  chosen := by
    intro selection hselected
    obtain ⟨old, -, hcarried⟩ := Option.bind_eq_some_iff.mp hselected
    exact among_of_carrySelection hcarried

/-- Replacing the reports leaves a sound store, whatever it was before. -/
theorem sound_setReports (s : Store) (doc : Document) (reports : List Report)
    (rule : SelectionRule) : (s.perform doc (.setReports reports rule)).Sound doc.length :=
  ⟨sortByExtent_pairwise _ _, fun _ ha => stands_of_mem_place ha,
    fun _ hselected => among_of_choose hselected⟩

/-- An effect that a sound store offers keeps it sound. -/
theorem Sound.perform {effect : Effect} (h : s.Sound doc.length) (offered : s.Offers effect) :
    (s.perform doc effect).Sound doc.length := by
  cases effect with
  | setReports reports rule => exact sound_setReports s doc reports rule
  | setPanel isOpen => exact ⟨h.ascends, h.stands, h.chosen⟩
  | select selection =>
    refine ⟨h.ascends, h.stands, fun chosen hselected => ?_⟩
    obtain rfl := Option.some.inj hselected
    exact offered

/-- Effects that a sound store offers one after another keep it sound. -/
theorem Sound.foldl_perform {effects : List Effect} (h : s.Sound doc.length)
    (offered : s.OffersEach doc effects) :
    (effects.foldl (Store.perform doc) s).Sound doc.length := by
  induction effects generalizing s with
  | nil => exact h
  | cons effect rest ih => exact ih (h.perform offered.1) offered.2

/-- Besides the version, a transaction leaves what its effects leave. -/
theorem exists_advance_eq (s : Store) (t : Transaction) (doc : Document) :
    ∃ version, s.advance t doc =
      { t.effects.foldl (perform doc) (s.edited t) with version } := by
  unfold advance
  dsimp only
  split
  case isTrue => exact ⟨_, rfl⟩
  case isFalse => exact ⟨_, rfl⟩

/-- A transaction advances a store to one that is sound if it is so after the effects. -/
theorem sound_advance {t : Transaction}
    (h : (t.effects.foldl (perform doc) (s.edited t)).Sound doc.length) :
    (s.advance t doc).Sound doc.length := by
  obtain ⟨version, hadvance⟩ := exists_advance_eq s t doc
  rw [hadvance]
  exact ⟨h.ascends, h.stands, h.chosen⟩

/-- A transaction goes through exactly if the store that it advances to passes the check. -/
theorem update_eq_ok_iff {t : Transaction} {next : Store} :
    s.update t doc = .ok next ↔ (s.advance t doc).Valid doc.length ∧ s.advance t doc = next := by
  rw [update, ← fault?_eq_none_iff]
  split
  case h_1 fault hfault => simp [hfault]
  case h_2 hnone => simp [hnone]

/-- Besides the version, a transaction that goes through leaves what its effects leave. -/
theorem exists_eq_of_update {t : Transaction} {next : Store} (h : s.update t doc = .ok next) :
    ∃ version, next = { t.effects.foldl (perform doc) (s.edited t) with version } := by
  obtain ⟨-, rfl⟩ := update_eq_ok_iff.mp h
  exact exists_advance_eq s t doc

/-- Every mark of the store covers characters. -/
def HasWideMarks (s : Store) : Prop :=
  ∀ a ∈ s.annotations, a.kind = .mark → a.extent.start < a.extent.stop

/-- The empty store has no marks. -/
theorem hasWideMarks_empty : empty.HasWideMarks := nofun

/-- Effects leave marks that cover characters. -/
theorem HasWideMarks.foldl_perform (wide : s.HasWideMarks) (doc : Document)
    (effects : List Effect) : (effects.foldl (Store.perform doc) s).HasWideMarks := by
  induction effects generalizing s with
  | nil => exact wide
  | cons effect rest ih =>
    cases effect with
    | setReports reports rule => exact ih fun a ha => (stands_of_mem_place ha).wide
    | setPanel isOpen => exact ih wide
    | select selection => exact ih wide

/-- A transaction leaves marks that cover characters, whatever its edit is: marks that close up
are not carried. -/
theorem HasWideMarks.update {t : Transaction} {next : Store} (wide : s.HasWideMarks)
    (h : s.update t doc = .ok next) : next.HasWideMarks := by
  have hedited : (s.edited t).HasWideMarks := by
    unfold edited
    split
    case h_1 e _ =>
      intro b hb hkind
      have hmem := (sortByExtent_perm _ _).mem_iff.mp hb
      obtain ⟨a, -, carried⟩ := List.mem_filterMap.mp hmem
      cases ha : a.kind with
      | mark =>
        rw [carry?_of_mark ha] at carried
        split at carried
        case isTrue hopen =>
          obtain rfl := Option.some.inj carried
          exact hopen
        case isFalse => simp at carried
      | point =>
        rw [carry?_of_point ha] at carried
        obtain ⟨offset, -, rfl⟩ := Option.map_eq_some_iff.mp carried
        exact absurd (ha.symm.trans hkind) nofun
    case h_2 => exact wide
  obtain ⟨version, rfl⟩ := exists_eq_of_update h
  exact hedited.foldl_perform doc t.effects

end Store

end Marginalia
