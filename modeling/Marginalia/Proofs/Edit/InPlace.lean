import Marginalia.Proofs.Edit.Survival

/-!
# Edits made in place

An edit is made splice by splice on one text, and before the first only the length of the text is
compared. Here every splice looks whether the text that it finds has its extent, and the edit comes
to nothing when one does not. For a well-formed edit of a text of its length none ever fails, so
that the edit is never left half made.
-/

namespace Marginalia

/-- The text with the characters from `start` up to `stop` replaced, if it has them. -/
def Text.replace? (t : Text) (start stop : Nat) (inserted : Text) : Option Text :=
  if start ≤ stop ∧ stop ≤ t.length then some (t.replace start stop inserted) else none

/-- The text after the pass, made from the last splice to the first, if each of them finds its
extent in the text that those before it have left. -/
def Pass.madeInPlace? (p : Pass) (t : Text) : Option Text :=
  p.splices.foldrM (fun s t => t.replace? s.extent.start s.extent.stop s.text) t

/-- The text after the edit, if every splice of every pass finds its extent in the text at hand. -/
def Edit.madeInPlace? (e : Edit) (t : Text) : Option Text :=
  e.passes.foldlM (fun t p => p.madeInPlace? t) t

/-- The splices of each pass of the edit lie in the text that the passes before it leave of `t`. -/
def Edit.StaysInside (e : Edit) (t : Text) : Prop :=
  ∀ done p rest, e.passes = done ++ p :: rest → ∀ s ∈ p.splices,
    s.extent.start ≤ s.extent.stop ∧
      s.extent.stop ≤ (done.foldl (fun t p => p.apply t) t).length

/-- The splices that come later in the text leave what a splice in line replaces. -/
theorem Splice.InLine.foldrM_replace? {old : Nat} {t : Text} {splices : List Splice}
    (h : InLine old t.length splices) :
    splices.foldrM (fun s t => t.replace? s.extent.start s.extent.stop s.text) t =
      some (splices.foldr (fun s t => t.replace s.extent.start s.extent.stop s.text) t) := by
  induction splices generalizing old with
  | nil => rfl
  | cons s rest ih =>
    obtain ⟨-, hordered, hfits⟩ := h.head
    have hlater := h.tail.foldr_replace
    have hlength : s.extent.stop ≤ (t.take s.extent.stop ++ weave t s.extent.stop rest).length := by
      rw [List.length_append, List.length_take_of_le hfits]
      exact Nat.le_add_right _ _
    rw [List.foldrM_cons, ih h.tail, List.foldr_cons, hlater]
    exact if_pos ⟨hordered, hlength⟩

namespace Pass

/-- Every splice of a well-formed pass finds its extent. -/
theorem madeInPlace?_eq {p : Pass} (h : p.WellFormed) {t : Text}
    (ht : t.length = p.lengthBefore) : p.madeInPlace? t = some (p.apply t) := by
  have hline := h.inLine
  rw [← ht] at hline
  exact hline.foldrM_replace?

variable {length final : Nat} {passes : List Pass}

/-- Every splice of a chain of passes finds its extent. -/
theorem Chain.foldlM_madeInPlace? (h : Chain length passes final) {t : Text}
    (ht : t.length = length) : passes.foldlM (fun t p => p.madeInPlace? t) t =
      some (passes.foldl (fun t p => p.apply t) t) := by
  induction h generalizing t with
  | nil => rfl
  | cons first _ ih =>
    rw [List.foldlM_cons, madeInPlace?_eq first ht]
    exact ih (length_apply first ht)

/-- Each pass of a chain is well formed, and finds the text at the length that it is for. -/
theorem Chain.of_split {done rest : List Pass} {p : Pass} (h : Chain length passes final)
    (split : passes = done ++ p :: rest) {t : Text} (ht : t.length = length) :
    p.WellFormed ∧ (done.foldl (fun t p => p.apply t) t).length = p.lengthBefore := by
  induction h generalizing done t with
  | nil => simp at split
  | cons first _ ih =>
    cases done with
    | nil =>
      obtain ⟨rfl, -⟩ := List.cons.inj split
      exact ⟨first, ht⟩
    | cons q done =>
      obtain ⟨rfl, hrest⟩ := List.cons.inj split
      exact ih hrest (length_apply first ht)

end Pass

namespace Edit

variable {e : Edit} {t : Text}

/-- A well-formed edit of a text of its length is made to the end. -/
theorem madeInPlace?_eq (h : e.WellFormed) (ht : t.length = e.lengthBefore) :
    e.madeInPlace? t = some (e.passes.foldl (fun t p => p.apply t) t) :=
  Pass.Chain.foldlM_madeInPlace? h ht

/-- A well-formed edit stays inside a text of its length. -/
theorem staysInside_of_wellFormed (h : e.WellFormed) (ht : t.length = e.lengthBefore) :
    e.StaysInside t := by
  intro done p rest split s hs
  obtain ⟨formed, hlength⟩ := Pass.Chain.of_split h split ht
  rw [hlength]
  exact ⟨formed.inLine.ordered s hs, formed.inLine.inside s hs⟩

end Edit

end Marginalia
