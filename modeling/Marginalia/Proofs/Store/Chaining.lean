import Marginalia.Proofs.Edit.Chaining
import Marginalia.Proofs.Store.Marks

/-!
# Reports through chained edits

Carrying the annotations of a store through two edits in turn leaves the same annotations as
carrying them through the chained edit at once. In turn, a mark goes as soon as its ends have
crossed; at once, its ends are mapped on and compared only in the end. The two agree since ends
that have crossed never part again. The order of annotations on one extent is left open here, and
so is the selection.
-/

namespace Marginalia

variable {e next whole : Edit}

namespace Annotation

/-- What chained edits leave of an annotation is what the second leaves of what the first does. -/
theorem carry?_of_andThen (formed : next.WellFormed) (made : e.andThen next = .ok whole)
    (a : Annotation) : a.carry? whole = (a.carry? e).bind (carry? next) := by
  cases hkind : a.kind with
  | mark =>
    rw [carry?_of_mark hkind, carry?_of_mark hkind, Edit.image_of_andThen made,
      Edit.image_of_andThen made]
    by_cases hopen : e.image .after a.extent.start < e.image .before a.extent.stop
    · rw [if_pos hopen, Option.bind_some]
      exact Eq.symm (carry?_of_mark hkind)
    · -- The ends have crossed, and each side of the second edit keeps their order.
      have hcrossed := Nat.le_of_not_lt hopen
      have hmono := Edit.image_mono formed hcrossed .before
      have hsides := Edit.image_before_le_after formed (e.image .after a.extent.start)
      have hclosed := Nat.not_lt_of_le (Nat.le_trans hmono hsides)
      rw [if_neg hopen, Option.bind_none, if_neg hclosed]
  | point =>
    rw [carry?_of_point hkind, carry?_of_point hkind, Edit.image?_of_andThen made]
    cases e.image? .before a.extent.start with
    | none => rfl
    | some offset =>
      rw [Option.bind_some, Option.map_some, Option.bind_some]
      exact Eq.symm (carry?_of_point hkind)

/-- Only the passes of an edit matter to an annotation. -/
theorem carry?_congr (h : e.passes = whole.passes) (a : Annotation) :
    a.carry? e = a.carry? whole := by
  unfold carry? Edit.image Edit.image?
  rw [h]

end Annotation

namespace Edit

open Annotation (carry?_congr carry?_of_andThen)

/-- What an edit leaves of annotations. One without passes leaves them all as they are. -/
def leaves (e : Edit) (annotations : List Annotation) : List Annotation :=
  if e.isEmpty then annotations else annotations.filterMap (·.carry? e)

/-- Annotations in another order are left in another order. -/
theorem leaves_perm {annotations others : List Annotation} (h : annotations.Perm others) :
    (e.leaves annotations).Perm (e.leaves others) := by
  unfold leaves
  split
  case isTrue => exact h
  case isFalse => exact h.filterMap _

/-- What chained edits leave is what the second leaves of what the first does. -/
theorem leaves_of_andThen (formed : next.WellFormed) (made : e.andThen next = .ok whole)
    (annotations : List Annotation) :
    whole.leaves annotations = next.leaves (e.leaves annotations) := by
  have hchain : whole.passes = e.passes ++ next.passes := by
    rw [(andThen_eq_ok_iff.mp made).2]
  unfold leaves
  rw [isEmpty_of_andThen made]
  cases hfirst : e.isEmpty with
  | true =>
    rw [List.isEmpty_iff.mp hfirst, List.nil_append] at hchain
    rw [if_pos rfl, Bool.true_and, funext (carry?_congr hchain)]
  | false =>
    rw [Bool.false_and, if_neg Bool.false_ne_true, if_neg Bool.false_ne_true]
    cases hsecond : next.isEmpty with
    | true =>
      rw [List.isEmpty_iff.mp hsecond, List.append_nil] at hchain
      rw [if_pos rfl, funext (carry?_congr hchain)]
    | false =>
      rw [if_neg Bool.false_ne_true, List.filterMap_filterMap,
        funext (carry?_of_andThen formed made)]

end Edit

namespace Store

variable {s : Store} {doc : Document}

/-- A transaction that carries an edit and does not replace the reports leaves what the edit
leaves. -/
theorem perm_leaves_of_update {t : Transaction} {after : Document} {s' : Store}
    (carries : t.edit = some e) (keeps : t.setsReports = false)
    (done : s.update t after = .ok s') : s'.annotations.Perm (e.leaves s.annotations) := by
  obtain ⟨-, rfl⟩ := update_eq_ok_iff.mp done
  rw [annotations_advance keeps]
  exact perm_annotations_edited carries

/-- Two edits that fit one after the other, taken in turn or chained, go through and leave the
same annotations, each with its extent, kind and report and as often. So do all transactions that
carry them and do not replace the reports. -/
theorem annotations_in_turn_perm_chained (valid : s.Valid doc.length) (first : e.Built)
    (second : next.Built) (fits : doc.length = e.lengthBefore)
    (meets : e.lengthAfter = next.lengthBefore) :
    ∃ whole middle last final, e.andThen next = .ok whole ∧ doc.apply e = .ok middle ∧
      middle.apply next = .ok last ∧ doc.apply whole = .ok final ∧ final.text = last.text ∧
      (∃ s₁ s₂ s', s.update (.ofEdit e) middle = .ok s₁ ∧
        s₁.update (.ofEdit next) last = .ok s₂ ∧ s.update (.ofEdit whole) final = .ok s') ∧
      ∀ t₁ t₂ t s₁ s₂ s', t₁.edit = some e → t₂.edit = some next → t.edit = some whole →
        t₁.setsReports = false → t₂.setsReports = false → t.setsReports = false →
        s.update t₁ middle = .ok s₁ → s₁.update t₂ last = .ok s₂ →
        s.update t final = .ok s' → s₂.annotations.Perm s'.annotations := by
  obtain ⟨whole, made⟩ : ∃ whole, e.andThen next = .ok whole :=
    ⟨_, Edit.andThen_eq_ok_iff.mpr ⟨meets, rfl⟩⟩
  have hwhole := (Edit.andThen_eq_ok_iff.mp made).2
  obtain ⟨middle, hmiddle⟩ := Document.exists_apply fits
  have hlength : middle.length = next.lengthBefore :=
    (Document.length_of_apply first.wellFormed hmiddle).trans meets
  obtain ⟨last, hlast⟩ := Document.exists_apply hlength
  obtain ⟨final, hfinal⟩ : ∃ final, doc.apply whole = .ok final :=
    Document.exists_apply (fits.trans (congrArg Edit.lengthBefore hwhole).symm)
  have htext : final.text = last.text := by
    rw [(Document.apply_eq_ok_iff.mp hfinal).2, (Document.apply_eq_ok_iff.mp hlast).2,
      (Document.apply_eq_ok_iff.mp hmiddle).2, hwhole]
    exact List.foldl_append
  refine ⟨whole, middle, last, final, made, hmiddle, hlast, hfinal, htext, ?_, ?_⟩
  · obtain ⟨s₁, h₁⟩ := exists_update_ofEdit valid first.wellFormed hmiddle
    obtain ⟨s₂, h₂⟩ := exists_update_ofEdit (valid_of_update h₁) second.wellFormed hlast
    have built := Edit.Built.andThen first second made
    obtain ⟨s', h'⟩ := exists_update_ofEdit valid built.wellFormed hfinal
    exact ⟨s₁, s₂, s', h₁, h₂, h'⟩
  · intro t₁ t₂ t s₁ s₂ s' carries₁ carries₂ carries keeps₁ keeps₂ keeps done₁ done₂ done
    have hfirst := perm_leaves_of_update carries₁ keeps₁ done₁
    have hsecond := perm_leaves_of_update carries₂ keeps₂ done₂
    have hchained := perm_leaves_of_update carries keeps done
    rw [Edit.leaves_of_andThen second.wellFormed made] at hchained
    exact (hsecond.trans (Edit.leaves_perm hfirst)).trans hchained.symm

/-- The first edit closes up a mark, and the second inserts text at its place. It also takes away
the place of a point and cuts off the front of another mark. -/
theorem annotations_in_turn_perm_chained_crossed_ends :
    let doc : Document := .ofText "main" ['a', 'b', 'c', 'd', 'e', 'f', 'g', 'h']
    let closed : Annotation := ⟨⟨1, 3⟩, .mark, ⟨.error ⟨"main", ⟨1, 3⟩⟩ "closed", .host 0⟩⟩
    let cut : Annotation := ⟨⟨2, 6⟩, .mark, ⟨.error ⟨"main", ⟨2, 6⟩⟩ "cut", .host 1⟩⟩
    let lost : Annotation := ⟨⟨5, 5⟩, .point, ⟨.error ⟨"main", ⟨5, 5⟩⟩ "lost", .host 2⟩⟩
    let s : Store := ⟨[closed, cut, lost], none, false, 0⟩
    let e : Edit := ⟨8, 6, [⟨8, [⟨⟨1, 3⟩, []⟩]⟩]⟩
    let next : Edit := ⟨6, 6, [⟨6, [⟨⟨1, 1⟩, ['x', 'y']⟩, ⟨⟨2, 4⟩, []⟩]⟩]⟩
    s.Valid doc.length ∧ e.Built ∧ next.Built ∧ ∃ middle last s₁ s₂,
      doc.apply e = .ok middle ∧ s.update (.ofEdit e) middle = .ok s₁ ∧
      middle.apply next = .ok last ∧ s₁.update (.ofEdit next) last = .ok s₂ ∧
      ∃ whole final s', e.andThen next = .ok whole ∧ doc.apply whole = .ok final ∧
        s.update (.ofEdit whole) final = .ok s' ∧ s₂.annotations.Perm s'.annotations ∧
        s'.annotations = [{ cut with extent := ⟨3, 4⟩ }] := by
  intro doc closed cut lost s e next
  have valid : s.Valid doc.length := fault?_eq_none_iff.mp (by decide)
  have hfirst : Edit.ofSplices 8 [⟨⟨1, 3⟩, []⟩] = .ok e := rfl
  have hsecond : Edit.ofSplices 6 [⟨⟨2, 4⟩, []⟩, ⟨⟨1, 1⟩, ['x', 'y']⟩] = .ok next := rfl
  obtain ⟨whole, middle, last, final, made, hmiddle, hlast, hfinal, -,
    ⟨s₁, s₂, s', done₁, done₂, done⟩, agree⟩ :=
    annotations_in_turn_perm_chained valid (.ofSplices hfirst) (.ofSplices hsecond) rfl rfl
  have hperm := agree _ _ _ s₁ s₂ s' rfl rfl rfl rfl rfl rfl done₁ done₂ done
  have hleft : s'.annotations = [{ cut with extent := ⟨3, 4⟩ }] := by
    obtain rfl := Except.ok.inj made
    obtain rfl := Except.ok.inj hfinal
    obtain rfl := Except.ok.inj done
    rfl
  exact ⟨valid, .ofSplices hfirst, .ofSplices hsecond, middle, last, s₁, s₂, hmiddle, done₁, hlast,
    done₂, whole, final, s', made, hfinal, done, hperm, hleft⟩

end Store

end Marginalia
