import Marginalia.Proofs.Edit.Landing

/-!
# The text after a pass

A pass edits its text from the last splice to the first. For splices in line the result can be
read from the first to the last: untouched text up to a splice, what the splice puts in, and so
on to the rest. In that order the text is compared with the walk of a position: the character
that a spared index names stands at its index after the pass.
-/

namespace Marginalia

namespace Splice

/-- From offset `old` on: the text in front of each splice, what the splice puts in, and at last
the rest of the text. -/
def weave (t : Text) : Nat → List Splice → Text
  | old, [] => t.drop old
  | old, s :: rest =>
    (t.drop old).take (s.extent.start - old) ++ s.text ++ weave t s.extent.stop rest

variable {old : Nat} {t : Text} {splices : List Splice}

/-- Splices in line, made from the last to the first, weave their texts into the rest. -/
theorem InLine.foldr_replace (h : InLine old t.length splices) :
    splices.foldr (fun s t => t.replace s.extent.start s.extent.stop s.text) t =
      t.take old ++ weave t old splices := by
  induction splices generalizing old with
  | nil => exact (List.take_append_drop old t).symm
  | cons s rest ih =>
    obtain ⟨hstart, hordered, hfits⟩ := h.head
    have hstop : (t.take s.extent.stop).length = s.extent.stop := List.length_take_of_le hfits
    have hfront : t.take s.extent.start =
        t.take old ++ (t.drop old).take (s.extent.start - old) := by
      rw [← List.take_add, Nat.add_sub_cancel' hstart]
    rw [List.foldr_cons, ih h.tail, Text.replace, List.take_append_of_le_length (by omega),
      List.take_take, Nat.min_eq_left hordered, List.drop_append_of_le_length (by omega),
      List.drop_of_length_le (by omega), List.nil_append, hfront, weave]
    simp only [List.append_assoc]

/-- The length of what splices in line weave. -/
theorem InLine.length_weave_add_removed (h : InLine old t.length splices)
    (hold : old ≤ t.length) :
    (weave t old splices).length + removed splices = t.length - old + inserted splices := by
  induction splices generalizing old with
  | nil => simp [weave, removed, inserted]
  | cons s rest ih =>
    obtain ⟨hstart, hordered, hfits⟩ := h.head
    have hrest := ih h.tail hfits
    simp only [weave, removed, inserted, removedLength, List.length_append, List.length_take,
      List.length_drop]
    omega

/-- A spared character stands where the walk of its position ends, when the text made before it
has the length that the walk counts from. -/
theorem InLine.getElem?_weave (h : InLine old t.length splices) {i : Nat}
    (spared : Spare i splices) (hi : old ≤ i) (made : Text) :
    (made ++ weave t old splices)[(Pass.landingFrom old made.length i splices).after]? = t[i]? := by
  induction splices generalizing old made with
  | nil =>
    have hdistance : made.length + (i - old) - made.length = i - old := by omega
    rw [Pass.landingFrom_nil, Landing.after_fixed, weave,
      List.getElem?_append_right (Nat.le_add_right _ _), hdistance, List.getElem?_drop,
      Nat.add_sub_cancel' hi]
  | cons s rest ih =>
    obtain ⟨hold, hordered, hfits⟩ := h.head
    by_cases hstart : s.extent.start ≤ i
    · have hmade : (made ++ ((t.drop old).take (s.extent.start - old) ++ s.text)).length =
          made.length + (s.extent.start - old) + s.text.length := by
        simp only [List.length_append, List.length_take, List.length_drop]
        omega
      rw [Pass.landingFrom_after_of_spare h spared hstart, weave, ← hmade, ← List.append_assoc]
      exact ih h.tail spared.tail (spared.stop_le hstart) _
    · have hlt : i < s.extent.start := by omega
      have hdistance : made.length + (i - old) - made.length = i - old := by omega
      have hlength : i - old < ((t.drop old).take (s.extent.start - old)).length := by
        simp only [List.length_take, List.length_drop]
        omega
      rw [Pass.landingFrom_of_lt hlt, Landing.after_fixed, weave,
        List.getElem?_append_right (Nat.le_add_right _ _), hdistance, List.append_assoc,
        List.getElem?_append_left hlength, List.getElem?_take_of_lt (by omega),
        List.getElem?_drop, Nat.add_sub_cancel' hi]

end Splice

namespace Pass

variable {p : Pass} {t : Text}

/-- The text after a pass, read from the first splice to the last. -/
theorem apply_eq_weave (h : p.WellFormed) (hlength : t.length = p.lengthBefore) :
    p.apply t = Splice.weave t 0 p.splices := by
  have hline := h.inLine
  rw [← hlength] at hline
  exact hline.foldr_replace

/-- The text after a pass has the announced length. -/
theorem length_apply (h : p.WellFormed) (hlength : t.length = p.lengthBefore) :
    (p.apply t).length = p.lengthAfter := by
  have hafter := lengthAfter_add_removed h.inLine
  have hline := h.inLine
  rw [← hlength] at hline
  have hweave := hline.length_weave_add_removed (Nat.zero_le _)
  rw [apply_eq_weave h hlength]
  omega

/-- A spared character stands at its index after the pass. -/
theorem getElem?_apply (h : p.WellFormed) (hlength : t.length = p.lengthBefore) {i : Nat}
    (hi : i < p.lengthBefore) (spared : p.Spares i) : (p.apply t)[p.indexAfter i]? = t[i]? := by
  have hline := h.inLine
  rw [← hlength] at hline
  have hweave := hline.getElem?_weave spared (Nat.zero_le i) []
  rw [apply_eq_weave h hlength, ← landing_after_of_spares h hi spared, landing,
    Nat.min_eq_left (by omega)]
  exact hweave

end Pass

end Marginalia
