import Marginalia.Proofs.Edit.Survival

/-!
# Images of positions and survivors

The image of a position always exists: where a pass loses the position, it goes to the end of
the replacement on its side. Images keep the order of positions on either side and stay inside
the edited text. Between a position and a survivor the order is kept across the two sides: the
image after inserted text passes no survivor that the position did not pass, and the image before
inserted text stays behind every survivor that the position was behind. An edit that only removes
leaves nothing but survivors, so that a stretch with none of them closes up.
-/

namespace Marginalia

namespace Pass

open Splice

/-- Where nothing is inserted, every offset from `new` on is taken by a spared character. -/
theorem exists_spare_of_landingFrom {old new length q : Nat} {splices : List Splice}
    (h : InLine old length splices) (hold : old ≤ length) (bare : ∀ s ∈ splices, s.text = [])
    (hnew : new ≤ q) (hq : q + removed splices < new + (length - old)) :
    ∃ i, old ≤ i ∧ i < length ∧ Spare i splices ∧ (landingFrom old new i splices).after = q := by
  induction splices generalizing old new with
  | nil =>
    simp only [removed] at hq
    have spared : Spare (old + (q - new)) [] := List.forall_mem_nil _
    refine ⟨old + (q - new), by omega, by omega, spared, ?_⟩
    simp only [landingFrom_nil, Landing.after_fixed]
    omega
  | cons s rest ih =>
    obtain ⟨hstart, hordered, hfits⟩ := h.head
    obtain ⟨htext, hbare⟩ := List.forall_mem_cons.mp bare
    simp only [removed, removedLength] at hq
    by_cases hfront : q < new + (s.extent.start - old)
    · refine ⟨old + (q - new), by omega, by omega, ?_, ?_⟩
      · refine List.forall_mem_cons.mpr ⟨by omega, fun next hnext => ?_⟩
        have hbehind := h.tail.ahead next hnext
        omega
      · rw [landingFrom_of_lt (by omega), Landing.after_fixed]
        omega
    · obtain ⟨i, hi, hlength, spared, hlanding⟩ := @ih s.extent.stop
        (new + (s.extent.start - old)) h.tail hfits hbare (by omega) (by omega)
      have spared' : Spare i (s :: rest) := List.forall_mem_cons.mpr ⟨by omega, spared⟩
      refine ⟨i, by omega, hlength, spared', ?_⟩
      rw [landingFrom_after_of_spare h spared' (by omega), htext]
      exact hlanding

/-- Where a pass only removes, the text after it consists of spared characters. -/
theorem exists_spares_of_lt {p : Pass} (h : p.WellFormed) (bare : ∀ s ∈ p.splices, s.text = [])
    {q : Nat} (hq : q < p.lengthAfter) :
    ∃ i, i < p.lengthBefore ∧ p.Spares i ∧ p.indexAfter i = q := by
  have hinserted : inserted p.splices = 0 := inserted_eq_zero_iff.mpr bare
  have hafter := lengthAfter_add_removed h.inLine
  obtain ⟨i, -, hi, spared, hlanding⟩ := exists_spare_of_landingFrom h.inLine
    (Nat.zero_le _) bare (Nat.zero_le q) (by omega)
  refine ⟨i, hi, spared, ?_⟩
  rw [← landing_after_of_spares h hi spared, landing, Nat.min_eq_left (by omega)]
  exact hlanding

end Pass

namespace Edit

variable {length final i pos : Nat} {p : Pass} {passes : List Pass} {side : Side}

/-- The image under passes, in the order of the passes. -/
theorem image_cons (length final : Nat) (p : Pass) (passes : List Pass) (side : Side)
    (pos : Nat) : image ⟨length, final, p :: passes⟩ side pos =
      image ⟨p.lengthAfter, final, passes⟩ side ((p.landing pos).on side) := rfl

/-- A position that is not lost comes to stand at its image. -/
theorem image_eq_of_image? {e : Edit} {q : Nat} (h : e.image? side pos = some q) :
    e.image side pos = q := by
  obtain ⟨length, final, passes⟩ := e
  induction passes generalizing pos with
  | nil => exact Option.some.inj h
  | cons p rest ih =>
    simp only [image?, List.foldlM_cons] at h
    obtain ⟨middle, hmiddle, hrest⟩ := Option.bind_eq_some_iff.mp h
    rw [Landing.on?] at hmiddle
    split at hmiddle
    case isTrue => simp at hmiddle
    case isFalse =>
      obtain rfl := Option.some.inj hmiddle
      exact ih hrest

end Edit

namespace Pass.Chain

open Edit

variable {length final i : Nat} {passes : List Pass}

/-- Images of positions in the text stay inside it. -/
theorem image_le (h : Chain length passes final) {pos : Nat} (hpos : pos ≤ length)
    (side : Side) : image ⟨length, final, passes⟩ side pos ≤ final := by
  induction h generalizing pos with
  | nil => exact hpos
  | cons first _ ih =>
    rw [image_cons]
    exact ih (landing_on_le first pos side)

/-- On each side images keep the order of positions. -/
theorem image_mono (h : Chain length passes final) {pos later : Nat} (hle : pos ≤ later)
    (side : Side) : image ⟨length, final, passes⟩ side pos ≤
      image ⟨length, final, passes⟩ side later := by
  induction h generalizing pos later with
  | nil => exact hle
  | cons first _ ih =>
    rw [image_cons, image_cons]
    exact ih (landing_mono first hle side)

/-- The image before inserted text comes before the image after it. -/
theorem image_before_le_after (h : Chain length passes final) (pos : Nat) :
    image ⟨length, final, passes⟩ .before pos ≤ image ⟨length, final, passes⟩ .after pos := by
  induction h generalizing pos with
  | nil => exact Nat.le_refl _
  | @cons p rest _ first behind ih =>
    rw [image_cons, image_cons]
    exact Nat.le_trans (behind.image_mono (landing_before_le_after p pos) .before) (ih _)

/-- A position is at or before a spared character exactly if its image after inserted text is. -/
theorem le_iff_image_le (h : Chain length passes final) (hi : i < length)
    (spared : SparedBy passes i) (pos : Nat) :
    pos ≤ i ↔ image ⟨length, final, passes⟩ .after pos ≤ indexThrough passes i := by
  induction h generalizing i pos with
  | nil => exact Iff.rfl
  | cons first _ ih =>
    rw [image_cons, le_iff_landing_after_le first hi spared.1 pos]
    exact ih (indexAfter_lt first hi spared.1) spared.2 _

/-- A position is behind a spared character exactly if its image before inserted text is. -/
theorem lt_iff_lt_image (h : Chain length passes final) (hi : i < length)
    (spared : SparedBy passes i) (pos : Nat) :
    i < pos ↔ indexThrough passes i < image ⟨length, final, passes⟩ .before pos := by
  induction h generalizing i pos with
  | nil => exact Iff.rfl
  | cons first _ ih =>
    rw [image_cons, lt_iff_lt_landing_before first hi spared.1 pos]
    exact ih (indexAfter_lt first hi spared.1) spared.2 _

/-- Where the passes only remove, a stretch that does not close up has a spared character. -/
theorem exists_sparedBy_of_image_lt (h : Chain length passes final)
    (bare : ∀ p ∈ passes, ∀ s ∈ p.splices, s.text = []) {start stop : Nat}
    (hopen : image ⟨length, final, passes⟩ .after start <
      image ⟨length, final, passes⟩ .before stop) :
    ∃ i, start ≤ i ∧ i < stop ∧ SparedBy passes i := by
  induction h generalizing start stop with
  | nil => exact ⟨start, Nat.le_refl _, hopen, trivial⟩
  | @cons p rest _ first _ ih =>
    obtain ⟨hbare, hrest⟩ := List.forall_mem_cons.mp bare
    rw [image_cons, image_cons] at hopen
    obtain ⟨q, hstart, hstop, spared⟩ := ih hrest hopen
    have hq : q < p.lengthAfter := Nat.lt_of_lt_of_le hstop (landing_on_le first stop .before)
    obtain ⟨i, hi, spares, rfl⟩ := exists_spares_of_lt first hbare hq
    exact ⟨i, (le_iff_landing_after_le first hi spares start).mpr hstart,
      (lt_iff_lt_landing_before first hi spares stop).mpr hstop, spares, spared⟩

end Pass.Chain

namespace Edit

variable {e : Edit} {i : Nat}

/-- The edit inserts no text. -/
def OnlyRemoves (e : Edit) : Prop := ∀ p ∈ e.passes, ∀ s ∈ p.splices, s.text = []

/-- Images of positions in the old text are inside the edited text. -/
theorem image_le_lengthAfter (h : e.WellFormed) {pos : Nat} (hpos : pos ≤ e.lengthBefore)
    (side : Side) : e.image side pos ≤ e.lengthAfter := Pass.Chain.image_le h hpos side

/-- On each side images keep the order of positions. -/
theorem image_mono (h : e.WellFormed) {pos later : Nat} (hle : pos ≤ later) (side : Side) :
    e.image side pos ≤ e.image side later := Pass.Chain.image_mono h hle side

/-- The image before inserted text comes before the image after it. -/
theorem image_before_le_after (h : e.WellFormed) (pos : Nat) :
    e.image .before pos ≤ e.image .after pos := Pass.Chain.image_before_le_after h pos

/-- A position is at or before a survivor exactly if its image after inserted text is at or
before the index of the survivor. -/
theorem le_iff_image_le (h : e.WellFormed) (hi : i < e.lengthBefore) (survives : e.Survives i)
    (pos : Nat) : pos ≤ i ↔ e.image .after pos ≤ e.indexAfter i :=
  Pass.Chain.le_iff_image_le h hi survives pos

/-- A position is behind a survivor exactly if its image before inserted text is behind the index
of the survivor. -/
theorem lt_iff_lt_image (h : e.WellFormed) (hi : i < e.lengthBefore) (survives : e.Survives i)
    (pos : Nat) : i < pos ↔ e.indexAfter i < e.image .before pos :=
  Pass.Chain.lt_iff_lt_image h hi survives pos

/-- When an edit only removes, a stretch that does not close up has a survivor. -/
theorem exists_survivor_of_image_lt (h : e.WellFormed) (bare : e.OnlyRemoves) {start stop : Nat}
    (hopen : e.image .after start < e.image .before stop) :
    ∃ i, start ≤ i ∧ i < stop ∧ e.Survives i :=
  Pass.Chain.exists_sparedBy_of_image_lt h bare hopen

section Chained

variable {next whole : Edit}

/-- The image under chained edits is the image under the second of the image under the first. -/
theorem image_of_andThen (made : e.andThen next = .ok whole) (side : Side) (pos : Nat) :
    whole.image side pos = next.image side (e.image side pos) := by
  obtain ⟨-, rfl⟩ := andThen_eq_ok_iff.mp made
  exact List.foldl_append

/-- Chained edits lose the positions that the first loses, and those whose images the second
loses. -/
theorem image?_of_andThen (made : e.andThen next = .ok whole) (side : Side) (pos : Nat) :
    whole.image? side pos = (e.image? side pos).bind (next.image? side) := by
  obtain ⟨-, rfl⟩ := andThen_eq_ok_iff.mp made
  exact List.foldlM_append

end Chained

end Edit

end Marginalia
