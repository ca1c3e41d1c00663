import Marginalia.Proofs.Edit.Join
import Marginalia.Proofs.Edit.Survival
import Marginalia.Proofs.Extent

/-!
# The edited text, piece by piece

The text after an edit that was made from splices can be read off the splices that were asked for,
in the order of their extents and without joining any: the text between two splices, then what the
second puts in, and so on to the rest of the text. The length of the new text is counted along the
same way, and never has to be taken below zero.
-/

namespace Marginalia

namespace Splice

variable {length : Nat} {splices joined : List Splice}

/-- The length of a text of `n` characters after a splice, if there is as much to take away. -/
def lengthAfter? (n : Nat) (s : Splice) : Option Nat :=
  if s.extent.start ≤ s.extent.stop ∧ s.removedLength ≤ n + s.text.length then
    some (n + s.text.length - s.removedLength)
  else none

/-- The length of a text of `n` characters after splices, counted from the first to the last, if at
each of them there is as much to take away. -/
def lengthThrough? (n : Nat) (splices : List Splice) : Option Nat := splices.foldlM lengthAfter? n

/-- A text that is long enough for all that splices take away is long enough at each of them. -/
theorem lengthThrough?_eq (ordered : ∀ s ∈ splices, s.extent.start ≤ s.extent.stop) {n : Nat}
    (hn : removed splices ≤ n) :
    lengthThrough? n splices = some (n + inserted splices - removed splices) := by
  induction splices generalizing n with
  | nil => rfl
  | cons s rest ih =>
    obtain ⟨hs, hrest⟩ := List.forall_mem_cons.mp ordered
    simp only [removed, inserted] at hn ⊢
    have hfits : s.extent.start ≤ s.extent.stop ∧ s.removedLength ≤ n + s.text.length :=
      ⟨hs, by omega⟩
    have hnext := ih hrest (n := n + s.text.length - s.removedLength) (by omega)
    rw [lengthThrough?] at hnext ⊢
    rw [List.foldlM_cons, lengthAfter?, if_pos hfits, Option.bind_eq_bind, Option.bind_some, hnext,
      Option.some.injEq]
    omega

/-- What is woven along splices from each offset on. The splices are taken from the last to the
first. -/
theorem weave_eq_foldr (t : Text) (old : Nat) (splices : List Splice) :
    weave t old splices = splices.foldr (fun s behind old =>
      (t.drop old).take (s.extent.start - old) ++ s.text ++ behind s.extent.stop)
        (fun old => t.drop old) old := by
  induction splices generalizing old with
  | nil => rfl
  | cons s rest ih => rw [weave, ih, List.foldr_cons]

/-- Joined splices weave what the splices weave. -/
theorem Ready.weave_join (ready : Ready length splices) (h : join splices = .ok joined) (t : Text)
    (old : Nat) : weave t old joined = weave t old splices := by
  rw [weave_eq_foldr, weave_eq_foldr]
  refine congrFun (ready.foldr_join (fun offset _ text more behind _ => ?_) h) old
  -- nothing stands between two insertions at one offset
  funext old
  simp [Extent.point]

/-- Splices put in what they put in, in order. -/
theorem inserted_inOrder (asked : List Splice) : inserted (inOrder asked) = inserted asked := by
  rw [inserted_eq_total, inserted_eq_total]
  exact total_inOrder (fun s hs => List.length_eq_zero_iff.mpr (text_eq_nil_of_isIdle hs)) asked

/-- Splices take away what they take away in order. -/
theorem removed_inOrder (asked : List Splice) : removed (inOrder asked) = removed asked := by
  rw [removed_eq_total, removed_eq_total]
  refine total_inOrder (fun s hs => ?_) asked
  simp only [isIdle, Extent.isEmpty, Bool.and_eq_true, beq_iff_eq] at hs
  rw [removedLength, hs.1, Nat.sub_self]

/-- The splices that do something, in order, are a stable sort of those that were asked for. -/
theorem isSortedBy_inOrder (asked : List Splice) :
    IsSortedBy Splice.extent (asked.filter (!·.isIdle)) (inOrder asked) :=
  (isSortedBy_sortByExtent Splice.extent asked).filter _

end Splice

namespace Pass

variable {length : Nat} {asked : List Splice} {p : Pass}

/-- A pass that was made weaves the splices that were asked for into its text. -/
theorem apply_eq_weave_inOrder (made : ofSplices length asked = .ok p) {t : Text}
    (ht : t.length = length) : p.apply t = Splice.weave t 0 (Splice.inOrder asked) := by
  obtain ⟨-, ready, hjoin⟩ := exists_join_of_ofSplices made
  have hline := Splice.join_inLine ready hjoin
  rw [← ht] at hline
  calc p.apply t
      = t.take 0 ++ Splice.weave t 0 p.splices := hline.foldr_replace
    _ = Splice.weave t 0 (Splice.inOrder asked) := ready.weave_join hjoin t 0

/-- The length after a pass that was made is counted along the splices that were asked for. -/
theorem lengthAfter_add_removed_asked (made : ofSplices length asked = .ok p) :
    p.lengthAfter + Splice.removed asked = length + Splice.inserted asked := by
  obtain ⟨hlength, ready, hjoin⟩ := exists_join_of_ofSplices made
  have hline := (inLine_of_ofSplices made).2
  rw [← hlength] at hline
  have hafter := lengthAfter_add_removed hline
  rwa [ready.removed_join hjoin, ready.inserted_join hjoin, Splice.removed_inOrder,
    Splice.inserted_inOrder, hlength] at hafter

/-- The length after a pass that was made is never below zero on the way, neither along the splices
that were asked for nor along the joined ones. -/
theorem lengthThrough?_eq_lengthAfter (made : ofSplices length asked = .ok p) :
    Splice.lengthThrough? length (Splice.inOrder asked) = some p.lengthAfter ∧
      Splice.lengthThrough? length p.splices = some p.lengthAfter := by
  obtain ⟨-, ready, hjoin⟩ := exists_join_of_ofSplices made
  have hline := (inLine_of_ofSplices made).2
  have hremoved := hline.old_add_removed_le (Nat.zero_le length)
  have hasked := lengthAfter_add_removed_asked made
  rw [Nat.zero_add] at hremoved
  rw [Splice.lengthThrough?_eq hline.ordered hremoved]
  rw [ready.removed_join hjoin] at hremoved
  rw [Splice.lengthThrough?_eq (fun s hs => (ready.sound s hs).1) hremoved]
  rw [ready.removed_join hjoin, ready.inserted_join hjoin, Splice.removed_inOrder,
    Splice.inserted_inOrder, ← hasked, Nat.add_sub_cancel]
  exact ⟨rfl, rfl⟩

end Pass

namespace Edit

open Splice

/-- A pass that does nothing need not be made. -/
theorem foldl_apply_pass (p : Pass) (t : Text) :
    (if p.splices.isEmpty then [] else [p]).foldl (fun t p => p.apply t) t = p.apply t := by
  cases hsplices : p.splices with
  | nil => simp [Pass.apply, hsplices]
  | cons s rest => rfl

/-- An edit that was made from splices gives, for a text of the announced length, the text that is
read along the splices in the order of their extents: what stands in front of each, what it puts
in, and at last the rest. Its length is the length of the text, more by what the splices put in and
less by what they take away, and nothing is taken below zero when it is counted, along the splices
that were asked for or along the joined ones. A text of another length is refused. -/
theorem apply_eq_pieces {length : Nat} {asked : List Splice} {e : Edit}
    (made : ofSplices length asked = .ok e) :
    IsSortedBy Splice.extent (asked.filter (!·.isIdle)) (inOrder asked) ∧
      (∀ t : Text, t.length = length → e.apply t = .ok (weave t 0 (inOrder asked)) ∧
        (weave t 0 (inOrder asked)).length = e.lengthAfter) ∧
      e.lengthAfter + removed asked = length + inserted asked ∧
      lengthThrough? length (inOrder asked) = some e.lengthAfter ∧
      (∀ p ∈ e.passes, lengthThrough? length p.splices = some e.lengthAfter) ∧
      ∀ t : Text, t.length ≠ length → e.apply t = .error (.lengthMismatch length t.length) := by
  obtain ⟨-, hformed⟩ := wellFormed_of_ofSplices made
  unfold ofSplices at made
  obtain ⟨p, hpass, rfl⟩ := exists_of_map_eq_ok made
  obtain ⟨hasked, hjoined⟩ := Pass.lengthThrough?_eq_lengthAfter hpass
  refine ⟨isSortedBy_inOrder asked, fun t ht => ?_, Pass.lengthAfter_add_removed_asked hpass,
    hasked, fun q hq => ?_, fun t ht => if_neg ht⟩
  · have htext := Pass.apply_eq_weave_inOrder hpass ht
    have happly : apply ⟨length, p.lengthAfter, if p.splices.isEmpty then [] else [p]⟩ t =
        .ok (weave t 0 (inOrder asked)) := by
      rw [apply, if_pos ht, foldl_apply_pass, htext]
    obtain ⟨after, hafter, hlength⟩ := exists_apply hformed ht
    rw [happly, Except.ok.injEq] at hafter
    exact ⟨happly, hafter ▸ hlength⟩
  · split at hq
    case isTrue => simp at hq
    case isFalse =>
      rw [List.mem_singleton.mp hq]
      exact hjoined

/-- Insertions at one offset in front of a deletion, given out of order. -/
theorem apply_eq_pieces_out_of_order :
    let asked : List Splice :=
      [⟨⟨3, 5⟩, ['Z']⟩, ⟨⟨1, 1⟩, ['x']⟩, ⟨⟨2, 2⟩, []⟩, ⟨⟨1, 3⟩, []⟩, ⟨⟨1, 1⟩, ['y']⟩]
    ∃ e, ofSplices 6 asked = .ok e ∧
      e.apply ['a', 'b', 'c', 'd', 'e', 'f'] = .ok ['a', 'x', 'y', 'Z', 'f'] ∧
      e.lengthAfter = 5 ∧ e.apply ['a'] = .error (.lengthMismatch 6 1) := by
  intro asked
  have made : ofSplices 6 asked = .ok ⟨6, 5,
    [⟨6, [⟨⟨1, 1⟩, ['x', 'y']⟩, ⟨⟨1, 3⟩, []⟩, ⟨⟨3, 5⟩, ['Z']⟩]⟩]⟩ := rfl
  obtain ⟨-, htext, -, -, -, hrefused⟩ := apply_eq_pieces made
  obtain ⟨happly, hlength⟩ := htext ['a', 'b', 'c', 'd', 'e', 'f'] rfl
  exact ⟨_, made, happly, hlength.symm, hrefused ['a'] (by decide)⟩

end Edit

end Marginalia
