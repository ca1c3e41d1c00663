import Marginalia.Proofs.Edit.Image
import Marginalia.Proofs.Edit.Join

/-!
# At once or in turn

The splices of an edit can be made at once, or as one edit each, the last first, so that each
finds its extent where it was asked for. Both ways lead to the same text and keep the same
positions. After inserted text, positions come to stand at the same offset, as far as no
insertion stands in front of a replacement. Before inserted text, a position is ahead, when the
splices are made at once, by what was inserted in front of it with nothing left in between: made
in turn, such an insertion finds the position where it is made itself.
-/

namespace Marginalia.Edit

open Splice

/-- After `e`, make the splices one after another, each as an edit of the text that is there by
then. -/
def inTurn (e : Edit) : List Splice → Option Edit
  | [] => some e
  | s :: rest => do
    let next ← (ofSplice e.lengthAfter s).toOption
    let whole ← (e.andThen next).toOption
    inTurn whole rest

/-- The splices that do something, in descending order of their extents; insertions at one offset
in reverse. -/
def descending (asked : List Splice) : List Splice := (inOrder asked).reverse

section Alone

variable {length pos : Nat} {s : Splice}

/-- A splice that fits the text and does something is an edit of one pass. -/
theorem ofSplice_eq_ok (hordered : s.extent.start ≤ s.extent.stop) (hfits : s.extent.stop ≤ length)
    (hbusy : s.isIdle = false) :
    ofSplice length s = .ok ⟨length, Pass.lengthAfter ⟨length, [s]⟩, [⟨length, [s]⟩]⟩ := by
  have herror : s.error? length = none := error?_eq_none_iff.mpr ⟨hordered, hfits⟩
  simp [ofSplice, ofSplices, Pass.ofSplices, herror, sortByExtent, insertByExtent, hbusy, join,
    joinAfter, Except.map]

/-- The image under one splice is where the splice alone carries a position of the text. -/
theorem image_single (hpos : pos ≤ length) (final : Nat) (side : Side) :
    image ⟨length, final, [⟨length, [s]⟩]⟩ side pos = (s.turn pos).on side := by
  simp only [image, List.foldl_cons, List.foldl_nil, Pass.landing, Nat.min_eq_left hpos, turn]

/-- One splice loses the positions of the text that the splice alone loses. -/
theorem image?_single (hpos : pos ≤ length) (final : Nat) (side : Side) :
    image? ⟨length, final, [⟨length, [s]⟩]⟩ side pos = (s.turn pos).on? side := by
  simp only [image?, List.foldlM_cons, List.foldlM_nil, Pass.landing, Nat.min_eq_left hpos, turn,
    bind_pure]

end Alone

/-- Splices that fit the text and follow each other downwards can be made in turn, and the edit
acts as the splices one after another. -/
theorem exists_inTurn {e : Edit} {splices : List Splice} (he : e.WellFormed)
    (hfits : ∀ s ∈ splices, s.extent.start ≤ s.extent.stop ∧ s.extent.stop ≤ e.lengthAfter)
    (hbusy : ∀ s ∈ splices, s.isIdle = false)
    (descends : splices.Pairwise fun a b => b.extent.stop ≤ a.extent.start) :
    ∃ d, e.inTurn splices = some d ∧ d.lengthBefore = e.lengthBefore ∧
      (∀ t : Text, d.passes.foldl (fun t p => p.apply t) t =
        splices.foldl (fun t s => t.replace s.extent.start s.extent.stop s.text)
          (e.passes.foldl (fun t p => p.apply t) t)) ∧
      ∀ pos ≤ e.lengthBefore, ∀ side,
        d.image side pos = splices.foldl (fun pos s => (s.turn pos).on side) (e.image side pos) ∧
        d.image? side pos = splices.foldl (fun pos s => pos.bind fun pos => (s.turn pos).on? side)
          (e.image? side pos) := by
  induction splices generalizing e with
  | nil => exact ⟨e, rfl, rfl, fun _ => rfl, fun _ _ _ => ⟨rfl, rfl⟩⟩
  | cons s rest ih =>
    obtain ⟨⟨hordered, hstop⟩, hrestFits⟩ := List.forall_mem_cons.mp hfits
    obtain ⟨hsbusy, hrestBusy⟩ := List.forall_mem_cons.mp hbusy
    obtain ⟨hbelow, hdescends⟩ := List.pairwise_cons.mp descends
    have hnext := ofSplice_eq_ok hordered hstop hsbusy
    have hformed := (wellFormed_of_ofSplices hnext).2
    generalize hafter : Pass.lengthAfter ⟨e.lengthAfter, [s]⟩ = final at hnext hformed
    have hwhole : e.andThen ⟨e.lengthAfter, final, [⟨e.lengthAfter, [s]⟩]⟩ =
        .ok ⟨e.lengthBefore, final, e.passes ++ [⟨e.lengthAfter, [s]⟩]⟩ :=
      andThen_eq_ok_iff.mpr ⟨rfl, rfl⟩
    have hlength : e.lengthAfter + s.text.length - (s.extent.stop - s.extent.start) = final :=
      hafter
    -- What is left of the text is long enough for the splices in front of this one.
    have hbelowFits : ∀ next ∈ rest,
        next.extent.start ≤ next.extent.stop ∧ next.extent.stop ≤ final := by
      intro next hmem
      have hlow := hbelow next hmem
      exact ⟨(hrestFits next hmem).1, by omega⟩
    obtain ⟨d, hd, hbefore, htext, hpos⟩ :=
      ih (he.andThen hformed hwhole) hbelowFits hrestBusy hdescends
    refine ⟨d, ?_, hbefore, ?_, ?_⟩
    · simp only [inTurn, hnext, Except.toOption, Option.bind_eq_bind, Option.bind_some, hwhole]
      exact hd
    · intro t
      rw [htext, List.foldl_append]
      rfl
    · intro pos hle side
      obtain ⟨himage, himage?⟩ := hpos pos hle side
      have hinside := image_le_lengthAfter he hle side
      refine ⟨?_, ?_⟩
      · rw [himage, image_of_andThen hwhole, image_single hinside]
        rfl
      · rw [himage?, image?_of_andThen hwhole]
        refine congrArg (rest.foldl _) ?_
        cases hkept : e.image? side pos with
        | none => rfl
        | some q =>
          rw [image_eq_of_image? hkept] at hinside
          exact image?_single hinside _ side

/-- An edit that was made from splices acts as its joined splices do at once. -/
theorem exists_join_of_ofSplices {length : Nat} {asked : List Splice} {e : Edit}
    (made : ofSplices length asked = .ok e) : ∃ joined, Ready length (inOrder asked) ∧
      join (inOrder asked) = .ok joined ∧ e.lengthBefore = length ∧
      (∀ t : Text, e.passes.foldl (fun t p => p.apply t) t =
        joined.foldr (fun s t => t.replace s.extent.start s.extent.stop s.text) t) ∧
      ∀ pos ≤ length, ∀ side,
        e.image side pos = (Pass.landingFrom 0 0 pos joined).on side ∧
        e.image? side pos = (Pass.landingFrom 0 0 pos joined).on? side := by
  obtain ⟨p, hpass, rfl⟩ := ofSplices_eq_ok_iff.mp made
  obtain ⟨rfl, ready, hjoin⟩ := Pass.exists_join_of_ofSplices hpass
  refine ⟨p.splices, ready, hjoin, rfl, ?_⟩
  by_cases hnone : p.splices = []
  · rw [hnone]
    refine ⟨fun _ => rfl, fun pos _ side => ?_⟩
    simp [image, image?, Landing.on?]
  · simp only [List.isEmpty_iff, if_neg hnone]
    refine ⟨fun _ => rfl, fun pos hle side => ?_⟩
    simp [image, image?, Pass.landing, Nat.min_eq_left hle]

/-- Splices made at once and splices made in turn, the last first, lead to the same text and keep
the same positions. After inserted text, a position comes to stand at the same offset, unless an
insertion stands in front of a replacement there. Before inserted text, the position is ahead, when
the splices are made at once, by what was inserted in front of it with nothing left in between. -/
theorem at_once_agrees_with_turns {length : Nat} {asked : List Splice} {e : Edit}
    (made : ofSplices length asked = .ok e) :
    ∃ d, (identity length).inTurn (descending asked) = some d ∧
      (∀ t : Text, t.length = length → ∃ after, e.apply t = .ok after ∧ d.apply t = .ok after) ∧
      ∀ pos ≤ length,
        (∀ side, (e.image? side pos).isSome = (d.image? side pos).isSome) ∧
        e.image .before pos = d.image .before pos + heldBack asked pos ∧
        e.image? .before pos = (d.image? .before pos).map (· + heldBack asked pos) ∧
        (¬ Crowded asked pos → e.image .after pos = d.image .after pos ∧
          e.image? .after pos = d.image? .after pos) := by
  obtain ⟨joined, ready, hjoin, hlength, htext, hpos⟩ := exists_join_of_ofSplices made
  have hline := join_inLine ready hjoin
  have hmem : ∀ {s}, s ∈ descending asked → s ∈ inOrder asked := List.mem_reverse.mp
  obtain ⟨d, hd, hbefore, htextTurns, hturns⟩ := exists_inTurn (wellFormed_identity length)
    (fun s hs => ready.sound s (hmem hs)) (fun s hs => ready.busy s (hmem hs))
    (List.pairwise_reverse.mpr (ready.apart hjoin))
  have htexts : ∀ t : Text, t.length = length → d.passes.foldl (fun t p => p.apply t) t =
      e.passes.foldl (fun t p => p.apply t) t := by
    rintro t rfl
    rw [htextTurns, htext, descending, List.foldl_reverse, ready.replace_join hjoin]
    rfl
  have hcarries : ∀ pos ≤ length, ∀ side, d.image side pos = turns side joined pos ∧
      d.image? side pos = turns? side joined pos := by
    intro pos hle side
    obtain ⟨himage, himage?⟩ := hturns pos hle side
    rw [descending, List.foldl_reverse] at himage himage?
    exact ⟨himage.trans (ready.turns_join hjoin side pos).symm,
      himage?.trans (ready.turns?_join hjoin side pos).symm⟩
  refine ⟨d, hd, fun t ht => ?_, fun pos hle => ?_⟩
  · refine ⟨e.passes.foldl (fun t p => p.apply t) t, ?_, ?_⟩
    · rw [apply, if_pos (ht.trans hlength.symm)]
    · rw [apply, if_pos (ht.trans hbefore.symm), htexts t ht]
  · have hback : heldBack joined pos = heldBack asked pos :=
      (ready.heldBack_join hjoin pos).trans (heldBack_inOrder asked pos)
    have hbefore := hline.landingFrom_before_eq 0 (Nat.zero_le pos)
    rw [hback, Nat.zero_add, Nat.sub_zero] at hbefore
    refine ⟨fun side => ?_, ?_, ?_, fun free => ?_⟩
    · rw [(hpos pos hle side).2, (hcarries pos hle side).2]
      exact hline.isSome_landingFrom_on? 0
    · rw [(hpos pos hle .before).1, (hcarries pos hle .before).1]
      exact hbefore
    · rw [(hpos pos hle .before).2, (hcarries pos hle .before).2]
      exact hline.landingFrom_on?_eq hbefore
    · have hfree : ¬ Crowded joined pos := fun crowded =>
        free ((ready.crowded_of_join hjoin crowded).of_subset fun s hs => (mem_inOrder.mp hs).1)
      have hafter := hline.landingFrom_after_eq 0 (Nat.zero_le pos) hfree
      rw [Nat.zero_add, Nat.sub_zero] at hafter
      rw [(hpos pos hle .after).1, (hcarries pos hle .after).1, (hpos pos hle .after).2,
        (hcarries pos hle .after).2]
      have hahead : (Pass.landingFrom 0 0 pos joined).on .after = turns .after joined pos + 0 :=
        hafter
      refine ⟨hafter, ?_⟩
      rw [hline.landingFrom_on?_eq hahead]
      simp

/-- The agreement for two insertions and a deletion at one offset, where both insertions are held
back for the end of what is deleted. -/
theorem at_once_agrees_with_turns_inserted_and_deleted :
    let asked : List Splice :=
      [⟨⟨1, 3⟩, []⟩, ⟨⟨4, 4⟩, ['!']⟩, ⟨⟨1, 1⟩, ['x']⟩, ⟨⟨1, 1⟩, ['y', 'z']⟩]
    ∃ e d, ofSplices 4 asked = .ok e ∧ (identity 4).inTurn (descending asked) = some d ∧
      heldBack asked 3 = 3 ∧ ¬ Crowded asked 3 ∧
      (∃ after, e.apply ['a', 'b', 'c', 'd'] = .ok after ∧
        d.apply ['a', 'b', 'c', 'd'] = .ok after) ∧
      e.image .before 3 = d.image .before 3 + 3 ∧ e.image? .after 3 = d.image? .after 3 := by
  intro asked
  have made : ofSplices 4 asked = .ok ⟨4, 6, [⟨4, [⟨⟨1, 1⟩, ['x', 'y', 'z']⟩, ⟨⟨1, 3⟩, []⟩,
    ⟨⟨4, 4⟩, ['!']⟩]⟩]⟩ := rfl
  obtain ⟨d, hd, htext, hpos⟩ := at_once_agrees_with_turns made
  have hback : heldBack asked 3 = 3 := by decide
  have hfree : ¬ Crowded asked 3 := by decide
  obtain ⟨-, hbefore, -, hafter⟩ := hpos 3 (by decide)
  rw [hback] at hbefore
  exact ⟨_, d, made, hd, hback, hfree, htext _ rfl, hbefore, (hafter hfree).2⟩

/-- Made at once and made in turn, an insertion and a deletion at one offset do not carry the end
of what is deleted to the same offset, and an insertion and a replacement at one offset do not carry
that offset to the same one. -/
theorem image_at_once_ne_image_in_turn :
    (∃ e d, ofSplices 4 [⟨⟨1, 1⟩, ['x']⟩, ⟨⟨1, 3⟩, []⟩] = .ok e ∧
      (identity 4).inTurn (descending [⟨⟨1, 1⟩, ['x']⟩, ⟨⟨1, 3⟩, []⟩]) = some d ∧
      e.image? .before 3 = some 2 ∧ d.image? .before 3 = some 1 ∧
      e.image .before 3 ≠ d.image .before 3) ∧
    ∃ e d, ofSplices 4 [⟨⟨1, 1⟩, ['x']⟩, ⟨⟨1, 2⟩, ['y', 'z']⟩] = .ok e ∧
      (identity 4).inTurn (descending [⟨⟨1, 1⟩, ['x']⟩, ⟨⟨1, 2⟩, ['y', 'z']⟩]) = some d ∧
      e.image? .after 1 = some 2 ∧ d.image? .after 1 = some 4 ∧
      e.image .after 1 ≠ d.image .after 1 := by
  refine ⟨⟨⟨4, 3, [⟨4, [⟨⟨1, 1⟩, ['x']⟩, ⟨⟨1, 3⟩, []⟩]⟩]⟩,
    ⟨4, 3, [⟨4, [⟨⟨1, 3⟩, []⟩]⟩, ⟨2, [⟨⟨1, 1⟩, ['x']⟩]⟩]⟩, rfl, rfl, rfl, rfl, by decide⟩, ?_⟩
  exact ⟨⟨4, 6, [⟨4, [⟨⟨1, 1⟩, ['x']⟩, ⟨⟨1, 2⟩, ['y', 'z']⟩]⟩]⟩,
    ⟨4, 6, [⟨4, [⟨⟨1, 2⟩, ['y', 'z']⟩]⟩, ⟨5, [⟨⟨1, 1⟩, ['x']⟩]⟩]⟩, rfl, rfl, rfl, rfl, by decide⟩

end Marginalia.Edit
