import Marginalia.Proofs.Edit.Image

/-!
# Stretches that an edit does not touch

A stretch that an edit does not touch moves as one. Its positions all come to stand at their
distance from where the first of them does, whatever their side, and its characters are found there
in the edited text. A pass that does not touch a stretch moves it to exactly the stretch that the
next pass is held against, so that no pass touches what the stretch has become.
-/

namespace Marginalia

namespace Pass

open Splice

/-- A pass does not touch a stretch if each of its splices is all in front of it or all behind. -/
theorem touches_eq_false_iff {p : Pass} {start stop : Nat} : p.touches start stop = false ↔
    ∀ s ∈ p.splices, s.extent.stop < start ∨ stop < s.extent.start := by
  rw [touches, List.any_eq_false]
  refine forall₂_congr fun s _ => ?_
  simp only [Bool.and_eq_true, decide_eq_true_eq, not_and, Nat.not_le]
  omega

/-- Splices that are all in front of a stretch or all behind shift its positions alike. -/
theorem exists_landingFrom_eq_shift {old length start stop : Nat} {splices : List Splice}
    (h : InLine old length splices)
    (clear : ∀ s ∈ splices, s.extent.stop < start ∨ stop < s.extent.start) (hold : old ≤ start)
    (new : Nat) : ∃ n, ∀ pos, start ≤ pos → pos ≤ stop →
      landingFrom old new pos splices = .fixed (n + (pos - start)) := by
  induction splices generalizing old new with
  | nil =>
    refine ⟨new + (start - old), fun pos hstart _ => ?_⟩
    have hoffset : new + (pos - old) = new + (start - old) + (pos - start) := by omega
    rw [landingFrom_nil, hoffset]
  | cons s rest ih =>
    obtain ⟨hs, hrest⟩ := List.forall_mem_cons.mp clear
    obtain ⟨-, hordered, -⟩ := h.head
    rcases hs with hfront | hbehind
    · obtain ⟨n, hn⟩ := ih h.tail hrest (Nat.le_of_lt hfront)
        (new + (s.extent.start - old) + s.text.length)
      refine ⟨n, fun pos hstart hstop => ?_⟩
      rw [landingFrom_of_past hordered (Or.inl (by omega))]
      exact hn pos hstart hstop
    · refine ⟨new + (start - old), fun pos hstart hstop => ?_⟩
      have hoffset : new + (pos - old) = new + (start - old) + (pos - start) := by omega
      rw [landingFrom_of_lt (by omega), hoffset]

variable {p : Pass} {start stop : Nat}

/-- A pass shifts the positions of a stretch that it does not touch alike. -/
theorem exists_landing_eq_shift (h : p.WellFormed) (untouched : p.touches start stop = false)
    (hstop : stop ≤ p.lengthBefore) : ∃ n, ∀ pos, start ≤ pos → pos ≤ stop →
      p.landing pos = .fixed (n + (pos - start)) := by
  obtain ⟨n, hn⟩ := exists_landingFrom_eq_shift h.inLine (touches_eq_false_iff.mp untouched)
    (Nat.zero_le start) 0
  refine ⟨n, fun pos hstart hpos => ?_⟩
  rw [landing, Nat.min_eq_left (by omega)]
  exact hn pos hstart hpos

/-- A pass spares the characters of a stretch that it does not touch. -/
theorem spares_of_untouched (untouched : p.touches start stop = false) {i : Nat}
    (hstart : start ≤ i) (hstop : i < stop) : p.Spares i := by
  intro s hs hgone
  have hclear := touches_eq_false_iff.mp untouched s hs
  omega

/-- A stretch that passes do not touch moves as one, and all its characters are spared. -/
theorem Chain.exists_shift {length final : Nat} {passes : List Pass}
    (h : Chain length passes final) (untouched : Edit.touchesIn start stop passes = false)
    (hle : start ≤ stop) (hstop : stop ≤ length) :
    ∃ n, (∀ pos, start ≤ pos → pos ≤ stop → ∀ side,
        Edit.image? ⟨length, final, passes⟩ side pos = some (n + (pos - start))) ∧
      ∀ i, start ≤ i → i < stop → SparedBy passes i := by
  induction h generalizing start stop with
  | nil =>
    refine ⟨start, fun pos hstart _ side => ?_, fun _ _ _ => trivial⟩
    rw [Nat.add_sub_cancel' hstart]
    rfl
  | @cons p rest final first behind ih =>
    rw [Edit.touchesIn, Bool.or_eq_false_iff] at untouched
    obtain ⟨m, hm⟩ := exists_landing_eq_shift first untouched.1 hstop
    have hinside := landing_on_le first stop .after
    rw [hm start (Nat.le_refl _) hle, hm stop hle (Nat.le_refl _), Nat.sub_self, Nat.add_zero,
      Landing.before_fixed, Landing.after_fixed] at untouched
    rw [hm stop hle (Nat.le_refl _), Landing.on_fixed] at hinside
    obtain ⟨n, himage, hspared⟩ := ih untouched.2 (Nat.le_add_right _ _) hinside
    refine ⟨n, fun pos hstart hpos side => ?_, fun i hstart hi => ?_⟩
    · have hrest := himage (m + (pos - start)) (by omega) (by omega) side
      rw [Nat.add_sub_cancel_left] at hrest
      have hlands : (p.landing pos).on? side = some (m + (pos - start)) := by
        rw [hm pos hstart hpos, Landing.on?, Landing.on_fixed]
        rfl
      rw [Edit.image?, List.foldlM_cons, hlands]
      exact hrest
    · have spared := spares_of_untouched untouched.1 hstart hi
      have hindex : p.indexAfter i = m + (i - start) := by
        rw [← landing_after_of_spares first (by omega) spared, hm i hstart (by omega)]
        rfl
      refine ⟨spared, ?_⟩
      rw [hindex]
      exact hspared _ (by omega) (by omega)

end Pass

namespace Edit

variable {e : Edit} {start stop : Nat}

/-- A position in a stretch that an edit does not touch has one image. -/
theorem image?_of_untouched (h : e.WellFormed) (untouched : e.touches start stop = false)
    (hstop : stop ≤ e.lengthBefore) {pos : Nat} (hpos : start ≤ pos) (hle : pos ≤ stop)
    (side : Side) : e.image? side pos = some (e.image .after pos) := by
  obtain ⟨n, himage, -⟩ :=
    Pass.Chain.exists_shift h untouched (Nat.le_trans hpos hle) hstop
  rw [image_eq_of_image? (himage pos hpos hle .after)]
  exact himage pos hpos hle side

/-- A stretch that an edit does not touch is moved as one, for every edit that can be made: its
positions come to stand at their distance from `n` on either side, and its characters are those from
`n` on in the edited text. -/
theorem untouched_moves_as_one (built : e.Built) (hle : start ≤ stop)
    (hstop : stop ≤ e.lengthBefore) (untouched : e.touches start stop = false) :
    ∃ n, (∀ pos, start ≤ pos → pos ≤ stop →
        e.image? .before pos = some (n + (pos - start)) ∧
        e.image? .after pos = some (n + (pos - start))) ∧
      ∀ t : Text, t.length = e.lengthBefore → ∃ after, e.apply t = .ok after ∧
        n + (stop - start) ≤ after.length ∧
        (after.drop n).take (stop - start) = (t.drop start).take (stop - start) := by
  have h := built.wellFormed
  obtain ⟨n, himage, hspared⟩ := Pass.Chain.exists_shift h untouched hle hstop
  refine ⟨n, fun pos hstart hpos => ⟨himage pos hstart hpos .before, himage pos hstart hpos .after⟩,
    fun t ht => ?_⟩
  obtain ⟨after, made, hlength⟩ := exists_apply h ht
  have hinside := image_le_lengthAfter h hstop .after
  rw [image_eq_of_image? (himage stop hle (Nat.le_refl _) .after)] at hinside
  refine ⟨after, made, by omega, ?_⟩
  -- character by character, each is a survivor and stands where its position comes to stand
  apply List.ext_getElem?
  intro k
  by_cases hk : k < stop - start
  · have hsurvives := hspared (start + k) (Nat.le_add_right _ _) (by omega)
    have hpos := himage (start + k) (Nat.le_add_right _ _) (by omega) .after
    have hindex : e.indexAfter (start + k) = n + k := by
      rw [image?_after_of_survives h (by omega) hsurvives, Option.some.injEq] at hpos
      omega
    have hchar := getElem?_of_apply h ht made (by omega) hsurvives
    rw [hindex] at hchar
    rw [List.getElem?_take_of_lt hk, List.getElem?_take_of_lt hk, List.getElem?_drop,
      List.getElem?_drop, hchar]
  · rw [List.getElem?_take_eq_none (by omega), List.getElem?_take_eq_none (by omega)]

/-- A stretch between a deletion and an insertion, which the first of two passes moves next to what
the second puts in front of it. -/
theorem untouched_moves_as_one_two_passes :
    let first : Pass := ⟨6, [⟨⟨0, 1⟩, []⟩, ⟨⟨5, 5⟩, ['x']⟩]⟩
    let second : Pass := ⟨6, [⟨⟨0, 0⟩, ['y', 'z']⟩]⟩
    let e : Edit := ⟨6, 8, [first, second]⟩
    e.Built ∧ e.touches 2 4 = false ∧ ∃ n, e.image? .after 3 = some (n + 1) ∧
      ∃ after, e.apply ['a', 'b', 'c', 'd', 'e', 'f'] = .ok after ∧
        (after.drop n).take 2 = ['c', 'd'] := by
  intro first second e
  have hfirst : ofSplices 6 [⟨⟨0, 1⟩, []⟩, ⟨⟨5, 5⟩, ['x']⟩] = .ok ⟨6, 6, [first]⟩ := rfl
  have hsecond : ofSplice 6 ⟨⟨0, 0⟩, ['y', 'z']⟩ = .ok ⟨6, 8, [second]⟩ := rfl
  have built : e.Built := .andThen (.ofSplices hfirst) (.ofSplice hsecond) rfl
  have hstop : 4 ≤ e.lengthBefore := by decide
  have untouched : e.touches 2 4 = false := rfl
  obtain ⟨n, himage, htext⟩ := untouched_moves_as_one built (by decide) hstop untouched
  obtain ⟨after, made, -, hchars⟩ := htext ['a', 'b', 'c', 'd', 'e', 'f'] rfl
  exact ⟨built, untouched, n, (himage 3 (by decide) (by decide)).2, after, made, hchars⟩

end Edit

end Marginalia
