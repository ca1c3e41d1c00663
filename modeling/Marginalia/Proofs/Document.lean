import Marginalia.Document
import Marginalia.Proofs.Edit.Survival

/-!
# Editing documents

A document takes every well-formed edit for its length and refuses all others. The edited
document has the announced length, the same source, and a version that is greater by one exactly
if the edit has a pass.
-/

namespace Marginalia.Document

variable {doc after : Document} {e : Edit}

/-- What an edit leaves of a document that takes it. -/
theorem apply_eq_ok_iff : doc.apply e = .ok after ↔
    doc.length = e.lengthBefore ∧ after = { doc with
      text := e.passes.foldl (fun t p => p.apply t) doc.text,
      version := if e.isEmpty then doc.version else doc.version + 1 } := by
  unfold Document.apply Edit.apply Document.length
  split
  case h_1 error hrefused =>
    split at hrefused
    case isTrue => simp at hrefused
    case isFalse h => simp [h]
  case h_2 text htext =>
    split at htext
    case isTrue h =>
      obtain rfl := Except.ok.inj htext
      rw [Except.ok.injEq, and_iff_right h, eq_comm]
    case isFalse => simp at htext

/-- A document refuses an edit for another length, and names the two lengths. -/
theorem apply_eq_error_iff {error : Edit.Error} : doc.apply e = .error error ↔
    e.lengthBefore ≠ doc.length ∧ error = .lengthMismatch e.lengthBefore doc.length := by
  unfold Document.apply Edit.apply Document.length
  by_cases h : doc.text.length = e.lengthBefore
  · simp [h]
  · simp [h, Ne.symm h, eq_comm]

/-- A document takes an edit for its length. -/
theorem exists_apply (h : doc.length = e.lengthBefore) : ∃ after, doc.apply e = .ok after :=
  ⟨_, apply_eq_ok_iff.mpr ⟨h, rfl⟩⟩

/-- The edited document has the announced length. -/
theorem length_of_apply (formed : e.WellFormed) (h : doc.apply e = .ok after) :
    after.length = e.lengthAfter := by
  obtain ⟨hlength, rfl⟩ := apply_eq_ok_iff.mp h
  exact Pass.Chain.length_foldl_apply formed hlength

/-- The version grows by one with an edit that has a pass. -/
theorem version_of_apply (h : doc.apply e = .ok after) (changes : e.isEmpty = false) :
    after.version = doc.version + 1 := by
  obtain ⟨-, rfl⟩ := apply_eq_ok_iff.mp h
  simp [changes]

end Marginalia.Document
