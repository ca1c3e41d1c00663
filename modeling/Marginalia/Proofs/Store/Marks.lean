import Mathlib.Data.List.Basic
import Marginalia.Proofs.Document
import Marginalia.Proofs.Store.Soundness

/-!
# Marks keep the characters that survive

The ends of a mark go through an edit on different sides, each on its own, and may cross on the
way. No survivor is lost or won by that: a surviving character is in a mark exactly if its image
is in what the mark becomes. A mark without survivors may still stay when text was inserted into
it. After an edit that only removes it is gone.
-/

namespace Marginalia

/-- The character at index `i` lies in the extent. -/
def Extent.Holds (x : Extent) (i : Nat) : Prop := x.start ≤ i ∧ i < x.stop

namespace Annotation

variable {e : Edit} {a : Annotation}

/-- A survivor is in a mark exactly if the mark stays and its new extent has the survivor. -/
theorem holds_iff_exists_carry? (formed : e.WellFormed) (hkind : a.kind = .mark) {i : Nat}
    (hi : i < e.lengthBefore) (survives : e.Survives i) :
    a.extent.Holds i ↔ ∃ b, a.carry? e = some b ∧ b.extent.Holds (e.indexAfter i) := by
  have hstart := Edit.le_iff_image_le formed hi survives a.extent.start
  have hstop := Edit.lt_iff_lt_image formed hi survives a.extent.stop
  rw [carry?_of_mark hkind]
  constructor
  · intro holds
    have himage := hstart.mp holds.1
    have himage' := hstop.mp holds.2
    exact ⟨_, if_pos (Nat.lt_of_le_of_lt himage himage'), himage, himage'⟩
  · rintro ⟨b, carried, holds⟩
    split at carried
    case isTrue =>
      obtain rfl := Option.some.inj carried
      exact ⟨hstart.mpr holds.1, hstop.mpr holds.2⟩
    case isFalse => simp at carried

/-- An edit that only removes drops exactly the marks without survivors. -/
theorem carry?_eq_none_iff (formed : e.WellFormed) (bare : e.OnlyRemoves)
    (hkind : a.kind = .mark) (inside : a.extent.stop ≤ e.lengthBefore) :
    a.carry? e = none ↔ ∀ i, a.extent.Holds i → ¬ e.Survives i := by
  constructor
  · intro dropped i holds survives
    have hi : i < e.lengthBefore := Nat.lt_of_lt_of_le holds.2 inside
    obtain ⟨b, carried, -⟩ := (holds_iff_exists_carry? formed hkind hi survives).mp holds
    rw [dropped] at carried
    contradiction
  · intro gone
    rw [carry?_of_mark hkind]
    refine if_neg fun hopen => ?_
    obtain ⟨i, hstart, hstop, survives⟩ := Edit.exists_survivor_of_image_lt formed bare hopen
    exact gone i ⟨hstart, hstop⟩ survives

/-- An edit without passes carries an annotation to where it is, if anywhere. -/
theorem eq_of_carry?_of_isEmpty {b : Annotation} (hempty : e.isEmpty = true)
    (narrow : a.kind = .point → a.extent.start = a.extent.stop) (h : a.carry? e = some b) :
    b = a := by
  obtain ⟨before, after, passes⟩ := e
  obtain rfl : passes = [] := List.isEmpty_iff.mp hempty
  cases hkind : a.kind with
  | mark =>
    rw [carry?_of_mark hkind] at h
    split at h
    case isTrue => exact (Option.some.inj h).symm
    case isFalse => simp at h
  | point =>
    rw [carry?_of_point hkind] at h
    have hextent : Extent.point a.extent.start = a.extent :=
      Extent.eq_of_start_of_stop rfl (narrow hkind)
    obtain rfl := Option.some.inj h
    exact congrArg (fun extent => { a with extent }) hextent

end Annotation

namespace Store

variable {s : Store} {doc : Document} {e : Edit}

/-- A transaction that does not replace the reports carries the annotations and no more. -/
theorem annotations_advance {t : Transaction} (keeps : t.setsReports = false) :
    (s.advance t doc).annotations = (s.edited t).annotations := by
  have hperformed (effects : List Effect) (s : Store)
      (h : ∀ reports rule, .setReports reports rule ∉ effects) :
      (effects.foldl (perform doc) s).annotations = s.annotations := by
    induction effects generalizing s with
    | nil => rfl
    | cons effect rest ih =>
      have hrest : ∀ reports rule, .setReports reports rule ∉ rest := fun reports rule hmem =>
        h reports rule (List.mem_cons_of_mem _ hmem)
      rw [List.foldl_cons, ih _ hrest]
      cases effect with
      | setReports reports rule => exact absurd List.mem_cons_self (h reports rule)
      | setPanel => rfl
      | select => rfl
  have hnone : ∀ reports rule, .setReports reports rule ∉ t.effects := fun reports rule hmem =>
    List.any_eq_false.mp keeps _ hmem rfl
  obtain ⟨version, hadvance⟩ := exists_advance_eq s t doc
  rw [hadvance]
  exact hperformed _ _ hnone

/-- A transaction that goes through and does not replace the reports leaves the annotations as its
edit carries them. -/
theorem annotations_of_update {next : Store} {t : Transaction} (h : s.update t doc = .ok next)
    (keeps : t.setsReports = false) : next.annotations = (s.edited t).annotations := by
  obtain ⟨-, rfl⟩ := update_eq_ok_iff.mp h
  exact annotations_advance keeps

/-- The annotations after a transaction with an edit are those that the edit carries. One without
passes carries none. -/
theorem perm_annotations_edited {t : Transaction} (carries : t.edit = some e) :
    (s.edited t).annotations.Perm
      (if e.isEmpty then s.annotations else s.annotations.filterMap (·.carry? e)) := by
  rw [edited]
  cases hempty : e.isEmpty with
  | true =>
    rw [Transaction.change_eq_none carries hempty, if_pos rfl]
  | false =>
    rw [Transaction.change_eq_some carries hempty, if_neg Bool.false_ne_true]
    exact sortByExtent_perm _ _

/-- What an annotation is carried to is in the store after the edit. -/
theorem mem_edited_of_carry? {t : Transaction} {length : Nat} {a b : Annotation}
    (valid : s.Valid length) (carries : t.edit = some e) (ha : a ∈ s.annotations)
    (carried : a.carry? e = some b) : b ∈ (s.edited t).annotations := by
  rw [(perm_annotations_edited carries).mem_iff]
  cases hempty : e.isEmpty with
  | true =>
    have hstays := Annotation.eq_of_carry?_of_isEmpty hempty (valid.narrow a ha) carried
    rw [hstays, if_pos rfl]
    exact ha
  | false =>
    rw [if_neg Bool.false_ne_true]
    exact List.mem_filterMap.mpr ⟨a, ha, carried⟩

/-- An edit that fits, on its own, leaves a store that passes the check. -/
theorem exists_update_ofEdit {after : Document} (valid : s.Valid doc.length)
    (formed : e.WellFormed) (made : doc.apply e = .ok after) :
    ∃ next, s.update (.ofEdit e) after = .ok next := by
  refine ⟨_, update_eq_ok_iff.mpr ⟨?_, rfl⟩⟩
  obtain ⟨hfits, hafter⟩ := Document.apply_eq_ok_iff.mp made
  cases hempty : e.isEmpty with
  | true =>
    have hlength : after.length = doc.length := by
      rw [hafter, List.isEmpty_iff.mp hempty]
      rfl
    have hchange : (Transaction.ofEdit e).change = none := Transaction.change_eq_none rfl hempty
    have hadvance : s.advance (.ofEdit e) after = s := by
      rw [advance, Transaction.changesText, hchange]
      rfl
    rw [hadvance, hlength]
    exact valid
  | false =>
    have hchange : (Transaction.ofEdit e).change = some e :=
      Transaction.change_eq_some rfl hempty
    have inside := valid.inside
    rw [hfits] at inside
    have hsound : (s.edited (.ofEdit e)).Sound after.length := by
      rw [Document.length_of_apply formed made, edited, hchange]
      exact sound_carry formed inside
    exact (sound_advance (t := .ofEdit e) hsound).valid

/-- Every mark keeps exactly its survivors through every edit that fits: a survivor was in the
mark exactly if the mark is still in the store, as a mark of the same report, and its new extent has
the image of the survivor. If the edit only removes, exactly the marks without survivors go. -/
theorem marks_keep_survivors (valid : s.Valid doc.length) (built : e.Built)
    (fits : doc.length = e.lengthBefore) :
    ∃ after, doc.apply e = .ok after ∧ (∃ next, s.update (.ofEdit e) after = .ok next) ∧
      ∀ t next, t.edit = some e → t.setsReports = false → s.update t after = .ok next →
        next.annotations.Perm
          (if e.isEmpty then s.annotations
          else s.annotations.filterMap (·.carry? e)) ∧
        ∀ a ∈ s.annotations, a.kind = .mark →
          (∀ b, a.carry? e = some b → b.report = a.report ∧ b.kind = .mark) ∧
          (∀ i < doc.length, e.Survives i → ∀ q, e.image? .after i = some q →
            (a.extent.Holds i ↔
              ∃ b ∈ next.annotations, a.carry? e = some b ∧ b.extent.Holds q)) ∧
          (e.OnlyRemoves →
            ((¬ ∃ b ∈ next.annotations, a.carry? e = some b) ↔
              ∀ i, a.extent.Holds i → ¬ e.Survives i)) := by
  have formed := built.wellFormed
  obtain ⟨after, made⟩ := Document.exists_apply fits
  refine ⟨after, made, exists_update_ofEdit valid formed made, ?_⟩
  intro t next carries keeps done
  obtain ⟨-, rfl⟩ := update_eq_ok_iff.mp done
  rw [annotations_advance keeps]
  refine ⟨perm_annotations_edited carries, fun a ha hkind => ?_⟩
  have stays {b : Annotation} (carried : a.carry? e = some b) : b ∈ (s.edited t).annotations :=
    mem_edited_of_carry? valid carries ha carried
  have inside := (valid.inside a ha).2
  rw [fits] at inside ⊢
  refine ⟨fun b carried => ?_, ?_, ?_⟩
  · obtain ⟨extent, rfl⟩ := Annotation.exists_eq_of_carry? carried
    exact ⟨rfl, hkind⟩
  · intro i hi survives q hq
    rw [Edit.image?_after_of_survives formed hi survives, Option.some.injEq] at hq
    rw [← hq, Annotation.holds_iff_exists_carry? formed hkind hi survives]
    exact exists_congr fun b =>
      ⟨fun ⟨carried, holds⟩ => ⟨stays carried, carried, holds⟩, And.right⟩
  · intro bare
    rw [← Annotation.carry?_eq_none_iff formed bare hkind inside, Option.eq_none_iff_forall_ne_some]
    constructor
    · intro dropped b carried
      exact dropped ⟨b, stays carried, carried⟩
    · rintro dropped ⟨b, -, carried⟩
      exact dropped b carried

/-- A mark on three characters, of which an edit that only removes takes the first. -/
theorem marks_keep_survivors_first_removed :
    let doc : Document := .ofText "main" ['a', 'b', 'c', 'd', 'e', 'f']
    let report : Report := ⟨.error ⟨"main", ⟨1, 4⟩⟩ "wrong", .host 0⟩
    let a : Annotation := ⟨⟨1, 4⟩, .mark, report⟩
    let s : Store := ⟨[a], some (selectionOf a), false, 0⟩
    let e : Edit := ⟨6, 4, [⟨6, [⟨⟨1, 2⟩, []⟩, ⟨⟨5, 6⟩, []⟩]⟩]⟩
    s.Valid doc.length ∧ e.Built ∧ e.Survives 2 ∧ ∃ after next, doc.apply e = .ok after ∧
      s.update (.ofEdit e) after = .ok next ∧
      ∃ b ∈ next.annotations, a.carry? e = some b ∧ b.report = report ∧ b.kind = .mark ∧
        b.extent.Holds 1 := by
  intro doc report a s e
  have valid : s.Valid doc.length := fault?_eq_none_iff.mp (by decide)
  have made : Edit.ofSplices 6 [⟨⟨5, 6⟩, []⟩, ⟨⟨1, 2⟩, []⟩] = .ok e := rfl
  have survives : e.Survives 2 := by decide
  obtain ⟨after, hafter, ⟨next, hnext⟩, keep⟩ :=
    marks_keep_survivors valid (.ofSplices made) rfl
  obtain ⟨-, marks⟩ := keep _ next rfl rfl hnext
  obtain ⟨same, holds, -⟩ := marks a List.mem_cons_self rfl
  obtain ⟨b, hb, carried, kept⟩ := (holds 2 (by decide) survives 1 rfl).mp ⟨by decide, by decide⟩
  obtain ⟨hreport, hkind⟩ := same b carried
  exact ⟨valid, .ofSplices made, survives, after, next, hafter, hnext, b, hb, carried, hreport,
    hkind, kept⟩

end Store

end Marginalia
