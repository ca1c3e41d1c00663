import Marginalia.Proofs.Edit.Order
import Marginalia.Proofs.Edit.Pieces

/-!
# The numbers kept of an edit

A pass may also be made in one go over the sorted splices. Each splice that is taken is put down
with the number of its characters, and the length after the pass is brought up to date in words of
64 bits, first by what the splice puts in and then by what it takes away. As long as the text and
all that is put in fit a word together, no number on the way leaves the words, and the tally ends
with the splices of the pass, with their true counts and with the length that the pass leaves.
-/

namespace Marginalia

namespace Pass

open Splice

/-- Why no tally is taken: the splices do not fit, or a number does not fit a word. -/
inductive Refusal where
  | unfit (error : Edit.Error)
  | overflow
  deriving DecidableEq, Repr

/-- The sum of two words, if it is a word. -/
def plus (a b : Nat) : Except Refusal Nat :=
  if a + b ≤ greatestOffset then .ok (a + b) else .error .overflow

/-- The difference of two words, if it is a word. -/
def minus (a b : Nat) : Except Refusal Nat := if b ≤ a then .ok (a - b) else .error .overflow

/-- A splice that was taken, with the number of characters that it puts in. -/
structure Entry where
  splice : Splice
  count : Nat
  deriving DecidableEq, Repr

/-- What is kept of a pass: the splices taken so far, last one first, and the length after them. -/
structure Tally where
  entries : List Entry
  lengthAfter : Nat
  deriving DecidableEq, Repr

namespace Tally

/-- Put a splice down behind the others. -/
def put (t : Tally) (s : Splice) : Except Refusal Tally := do
  let grown ← plus t.lengthAfter s.text.length
  let lengthAfter ← minus grown s.removedLength
  return ⟨⟨s, s.text.length⟩ :: t.entries, lengthAfter⟩

/-- Take the next of the sorted splices: leave it out if it does nothing, refuse it if it overlaps
the last one, let the last one absorb it if both are insertions at one offset, or put it down. -/
def take (t : Tally) (s : Splice) : Except Refusal Tally :=
  if s.isIdle then .ok t
  else
    match t.entries with
    | [] => t.put s
    | last :: earlier =>
      if s.extent.start < last.splice.extent.stop then
        .error (.unfit (.overlap s.extent.start))
      else if last.splice.isInsertion && s.isInsertion
          && s.extent.start == last.splice.extent.start then do
        let count ← plus last.count s.text.length
        let lengthAfter ← plus t.lengthAfter s.text.length
        return ⟨⟨⟨last.splice.extent, last.splice.text ++ s.text⟩, count⟩ :: earlier, lengthAfter⟩
      else t.put s

end Tally

/-- The tally of the splices that are asked for, on a text of `length` characters. -/
def tally (length : Nat) (asked : List Splice) : Except Refusal Tally :=
  match asked.findSome? (Splice.error? length) with
  | some error => .error (.unfit error)
  | none => (sortByExtent Splice.extent asked).foldlM Tally.take ⟨[], length⟩

/-- A splice with its true count. -/
def entry (s : Splice) : Entry := ⟨s, s.text.length⟩

/-- The length after a splice, when `n` is the length before it. -/
def lengthPast (n : Nat) (s : Splice) : Nat := n + s.text.length - s.removedLength

/-- The tally of joined splices behind the entries that are there, when `n` is the length after
those, or the error of the joining. -/
def tallyJoined (n : Nat) (entries : List Entry) :
    Except Edit.Error (List Splice) → Except Refusal Tally
  | .error error => .error (.unfit error)
  | .ok joined => .ok ⟨(joined.map entry).reverse ++ entries, joined.foldl lengthPast n⟩

section Steps

variable {length n : Nat} {held s : Splice} {rest : List Splice} {entries : List Entry}

/-- The length after a splice, without subtraction. -/
theorem lengthPast_add_removed (enough : s.removedLength ≤ n) :
    lengthPast n s + s.removedLength = n + s.text.length := by
  rw [lengthPast]
  omega

/-- The length after a splice grows by what the splice absorbs. -/
theorem lengthPast_append (enough : held.removedLength ≤ n) (more : Text) :
    lengthPast n ⟨held.extent, held.text ++ more⟩ = lengthPast n held + more.length := by
  simp only [lengthPast, removedLength, List.length_append] at *
  omega

/-- A sum that is a word is made. -/
theorem plus_eq {a b : Nat} (h : a + b ≤ greatestOffset) : plus a b = .ok (a + b) := if_pos h

/-- A difference that is a word is made. -/
theorem minus_eq {a b : Nat} (h : b ≤ a) : minus a b = .ok (a - b) := if_pos h

/-- A splice is put down if the length before it and its text fit a word and the text has what it
takes away. -/
theorem put_eq (words : n + s.text.length ≤ greatestOffset) (enough : s.removedLength ≤ n) :
    Tally.put ⟨entries, n⟩ s = .ok ⟨entry s :: entries, lengthPast n s⟩ := by
  have hminus := minus_eq (Nat.le_trans enough (Nat.le_add_right n s.text.length))
  rw [Tally.put, plus_eq words]
  change (minus (n + s.text.length) s.removedLength >>= _) = _
  rw [hminus]
  rfl

/-- A splice that does nothing leaves the tally as it is. -/
theorem take_of_isIdle (t : Tally) (idle : s.isIdle = true) : t.take s = .ok t := if_pos idle

/-- The first splice that does something is put down. -/
theorem take_first (busy : s.isIdle = false) : Tally.take ⟨[], n⟩ s = Tally.put ⟨[], n⟩ s := by
  rw [Tally.take, busy]
  rfl

/-- A splice that overlaps the last one is refused. -/
theorem take_of_overlap (busy : s.isIdle = false) (overlaps : s.extent.start < held.extent.stop) :
    Tally.take ⟨entry held :: entries, n⟩ s = .error (.unfit (.overlap s.extent.start)) := by
  rw [Tally.take, busy]
  exact if_pos overlaps

/-- The last splice absorbs an insertion at its offset if it is an insertion, too, as long as the
sums are words. -/
theorem take_of_joins (busy : s.isIdle = false) (clear : ¬ s.extent.start < held.extent.stop)
    (joins : (held.isInsertion && s.isInsertion && s.extent.start == held.extent.start) = true)
    (counts : held.text.length + s.text.length ≤ greatestOffset)
    (words : n + s.text.length ≤ greatestOffset) :
    Tally.take ⟨entry held :: entries, n⟩ s
      = .ok ⟨entry ⟨held.extent, held.text ++ s.text⟩ :: entries, n + s.text.length⟩ := by
  have hentry : entry ⟨held.extent, held.text ++ s.text⟩
      = ⟨⟨held.extent, held.text ++ s.text⟩, held.text.length + s.text.length⟩ := by
    simp [entry]
  rw [Tally.take, busy, hentry]
  refine (if_neg clear).trans ((if_pos joins).trans ?_)
  simp only [entry, plus_eq counts, plus_eq words]
  rfl

/-- Another splice is put down behind the last one. -/
theorem take_of_apart (busy : s.isIdle = false) (clear : ¬ s.extent.start < held.extent.stop)
    (apart : ¬ (held.isInsertion && s.isInsertion && s.extent.start == held.extent.start) = true) :
    Tally.take ⟨entry held :: entries, n⟩ s = Tally.put ⟨entry held :: entries, n⟩ s := by
  rw [Tally.take, busy]
  exact (if_neg clear).trans (if_neg apart)

/-- Joined splices are tallied one after the other. -/
theorem tallyJoined_map_cons (n : Nat) (entries : List Entry) (held : Splice)
    (result : Except Edit.Error (List Splice)) :
    tallyJoined n entries (result.map (held :: ·))
      = tallyJoined (lengthPast n held) (entry held :: entries) result := by
  cases result with
  | error error => rfl
  | ok joined => simp [Except.map, tallyJoined]

/-- Behind a splice that was put down, the tally of the sorted splices is that of the joined ones.
The length after it and what is left of the text behind it allow for whatever is taken away yet. -/
theorem foldlM_take (enough : held.removedLength ≤ n)
    (room : length ≤ lengthPast n held + held.extent.stop)
    (fits : ∀ s ∈ rest, s.extent.start ≤ s.extent.stop ∧ s.extent.stop ≤ length)
    (words : lengthPast n held + inserted rest ≤ greatestOffset) :
    rest.foldlM Tally.take ⟨entry held :: entries, lengthPast n held⟩
      = tallyJoined n entries (joinAfter held (rest.filter (!·.isIdle))) := by
  induction rest generalizing held n entries with
  | nil => rfl
  | cons s rest ih =>
    obtain ⟨⟨hordered, hfits⟩, hrest⟩ := List.forall_mem_cons.mp fits
    rw [inserted] at words
    rw [List.foldlM_cons]
    cases hidle : s.isIdle with
    | true =>
      rw [take_of_isIdle _ hidle, List.filter_cons_of_neg (by simp [hidle])]
      exact ih enough room hrest (by omega)
    | false =>
      rw [List.filter_cons_of_pos (by simp [hidle]), joinAfter]
      by_cases hoverlap : s.extent.start < held.extent.stop
      · rw [if_pos hoverlap, take_of_overlap hidle hoverlap]
        rfl
      have hclear := Nat.le_of_not_lt hoverlap
      have hpast := lengthPast_add_removed enough
      rw [if_neg hoverlap]
      by_cases hjoins :
          (held.isInsertion && s.isInsertion && s.extent.start == held.extent.start) = true
      · have hgrown := lengthPast_append enough s.text
        rw [if_pos hjoins, take_of_joins hidle hoverlap hjoins (by omega) (by omega), ← hgrown]
        refine ih enough ?_ hrest ?_
        · exact Nat.le_trans room (Nat.add_le_add_right (hgrown ▸ Nat.le_add_right _ _) _)
        · omega
      · -- What the text still has behind the last splice is enough for the next one.
        have hfinds : s.removedLength ≤ lengthPast n held := by
          rw [removedLength]
          omega
        have hnext := lengthPast_add_removed hfinds
        rw [if_neg hjoins, tallyJoined_map_cons, take_of_apart hidle hoverlap hjoins,
          put_eq (by omega) hfinds]
        refine ih hfinds ?_ hrest ?_
        · rw [removedLength] at hnext
          omega
        · omega

end Steps

section Made

variable {length final : Nat} {asked splices : List Splice} {p : Pass} {passes : List Pass}

/-- The tally of sorted splices is that of the joined ones. -/
theorem foldlM_take_eq
    (fits : ∀ s ∈ splices, s.extent.start ≤ s.extent.stop ∧ s.extent.stop ≤ length)
    (words : length + inserted splices ≤ greatestOffset) :
    splices.foldlM Tally.take ⟨[], length⟩
      = tallyJoined length [] (join (splices.filter (!·.isIdle))) := by
  induction splices with
  | nil => rfl
  | cons s rest ih =>
    obtain ⟨⟨hordered, hfits⟩, hrest⟩ := List.forall_mem_cons.mp fits
    rw [inserted] at words
    rw [List.foldlM_cons]
    cases hidle : s.isIdle with
    | true =>
      rw [take_of_isIdle _ hidle, List.filter_cons_of_neg (by simp [hidle])]
      exact ih hrest (by omega)
    | false =>
      have hfinds : s.removedLength ≤ length := by
        rw [removedLength]
        omega
      have hpast := lengthPast_add_removed hfinds
      rw [List.filter_cons_of_pos (by simp [hidle]), take_first hidle, put_eq (by omega) hfinds]
      refine foldlM_take hfinds ?_ hrest (by omega)
      rw [removedLength] at hpast
      omega

/-- The splices of the pass with their true counts, and the length that the pass leaves. -/
def tallied (p : Pass) : Tally := ⟨(p.splices.map entry).reverse, p.lengthAfter⟩

/-- As long as the text and all that is put in fit a word together, the tally of splices comes to
the pass that they make, with its true numbers, or is refused for the reason for which that is. -/
theorem tally_eq (words : length + inserted asked ≤ greatestOffset) :
    tally length asked = match ofSplices length asked with
      | .error error => .error (.unfit error)
      | .ok p => .ok p.tallied := by
  unfold tally ofSplices
  cases hunfit : asked.findSome? (Splice.error? length) with
  | some error => rfl
  | none =>
    have hsorted := sortByExtent_perm Splice.extent asked
    have hfits : ∀ s ∈ sortByExtent Splice.extent asked,
        s.extent.start ≤ s.extent.stop ∧ s.extent.stop ≤ length := by
      intro s hs
      exact error?_eq_none_iff.mp (List.findSome?_eq_none_iff.mp hunfit s (hsorted.mem_iff.mp hs))
    have hinserted : inserted (sortByExtent Splice.extent asked) = inserted asked := by
      rw [inserted_eq_total, inserted_eq_total]
      exact total_perm _ hsorted
    dsimp only
    rw [foldlM_take_eq hfits (hinserted.symm ▸ words)]
    cases join ((sortByExtent Splice.extent asked).filter (!·.isIdle)) with
    | error error => rfl
    | ok joined =>
      simp only [tallyJoined, List.append_nil]
      rfl

/-- A pass puts in what the splices that it is made from put in. -/
theorem inserted_of_ofSplices (made : ofSplices length asked = .ok p) :
    inserted p.splices = inserted asked := by
  obtain ⟨-, ready, hjoin⟩ := exists_join_of_ofSplices made
  rw [ready.inserted_join hjoin, inserted_inOrder]

/-- The number of characters that passes put in together. -/
def insertedBy : List Pass → Nat
  | [] => 0
  | p :: rest => inserted p.splices + insertedBy rest

/-- A pass leaves no more than it finds and puts in. -/
theorem WellFormed.lengthAfter_le (h : p.WellFormed) :
    p.lengthAfter ≤ p.lengthBefore + inserted p.splices := by
  have hafter := lengthAfter_add_removed h.inLine
  omega

/-- Passes leave no more than they find and put in. -/
theorem Chain.final_le (h : Chain length passes final) : final ≤ length + insertedBy passes := by
  induction h with
  | nil => exact Nat.le_refl _
  | cons first _ ih =>
    have hfirst := first.lengthAfter_le
    rw [insertedBy]
    omega

/-- What each pass finds and puts in is no more than what all of them do. -/
theorem Chain.add_inserted_le (h : Chain length passes final) :
    ∀ p ∈ passes, p.lengthBefore + inserted p.splices ≤ length + insertedBy passes := by
  induction h with
  | nil => exact List.forall_mem_nil _
  | cons first _ ih =>
    have hfirst := first.lengthAfter_le
    refine List.forall_mem_cons.mpr ⟨by rw [insertedBy]; omega, fun p hp => ?_⟩
    have hlater := ih p hp
    rw [insertedBy]
    omega

end Made

/-- What is kept of a pass is as it should be. There are splices. Each does something, is in order
and lies inside the text; each stops before the next one starts, and no two are insertions at one
offset. The length after the pass makes up for what is put in and taken away. The pass was made from
splices, and whichever those were, their tally has the true count of each splice and the true
length. -/
structure Kept (p : Pass) : Prop where
  nonempty : p.splices ≠ []
  busy : ∀ s ∈ p.splices, s.extent.start < s.extent.stop ∨ s.text ≠ []
  inside : ∀ s ∈ p.splices, s.extent.start ≤ s.extent.stop ∧ s.extent.stop ≤ p.lengthBefore
  apart : p.splices.Pairwise fun a b => a.extent.stop ≤ b.extent.start
  once : p.splices.Pairwise fun a b => a.isInsertion = true → b.isInsertion = true →
    a.extent.start ≠ b.extent.start
  balance : p.lengthAfter + removed p.splices = p.lengthBefore + inserted p.splices
  made : ∃ asked, ofSplices p.lengthBefore asked = .ok p
  tallied : ∀ asked, ofSplices p.lengthBefore asked = .ok p →
    tally p.lengthBefore asked = .ok p.tallied

/-- A splice that does something and takes nothing away puts something in. -/
theorem text_ne_nil_of_point {s : Splice} (busy : s.isIdle = false)
    (point : s.extent.start = s.extent.stop) : s.text ≠ [] := by
  simpa [isIdle, Extent.isEmpty, point] using busy

/-- What is kept of a well-formed pass that was made is as it should be, as long as its numbers fit
a word. -/
theorem WellFormed.kept {p : Pass} (h : p.WellFormed)
    (made : ∃ asked, ofSplices p.lengthBefore asked = .ok p)
    (words : p.lengthBefore + inserted p.splices ≤ greatestOffset) : p.Kept where
  nonempty := h.nonempty
  busy := by
    intro s hs
    have hordered := h.inLine.ordered s hs
    by_cases hpoint : s.extent.start = s.extent.stop
    · exact Or.inr (text_ne_nil_of_point (h.inLine.busy s hs) hpoint)
    · exact Or.inl (by omega)
  inside := fun s hs => ⟨h.inLine.ordered s hs, h.inLine.inside s hs⟩
  apart := h.inLine.apart.imp fun hab => hab.1
  once := by
    refine h.inLine.apart.imp fun {a b} hab ha hb hstart => hab.2 ?_
    simp only [isInsertion, Extent.isEmpty, beq_iff_eq] at ha hb
    exact Extent.eq_of_start_of_stop hstart (by omega)
  balance := lengthAfter_add_removed h.inLine
  made := made
  tallied := by
    intro asked hmade
    rw [inserted_of_ofSplices hmade] at words
    rw [tally_eq words, hmade]

end Pass

namespace Edit

/-- Every edit that can be made leads from its first length to its last by passes each of which is
made for the length that the one before it leaves; without passes the two lengths are the same. As
long as its first length and all that it puts in fit a word together, its last length does, and what
is kept of each of its passes is as it should be. -/
theorem passes_chain_with_true_counts {e : Edit} (built : e.Built)
    (words : e.lengthBefore + Pass.insertedBy e.passes ≤ greatestOffset) :
    Pass.Chain e.lengthBefore e.passes e.lengthAfter ∧ e.lengthAfter ≤ greatestOffset ∧
      ∀ p ∈ e.passes, p.Kept := by
  have chain : Pass.Chain e.lengthBefore e.passes e.lengthAfter := built.wellFormed
  have made : ∀ p ∈ e.passes, ∃ asked, Pass.ofSplices p.lengthBefore asked = .ok p := by
    refine built.forall_passes fun {length asked p} hmade => ⟨asked, ?_⟩
    rw [(Pass.inLine_of_ofSplices hmade).1]
    exact hmade
  refine ⟨chain, Nat.le_trans chain.final_le words, fun p hp => ?_⟩
  have hwords := Nat.le_trans (chain.add_inserted_le p hp) words
  exact (chain.wellFormed_of_mem p hp).kept (made p hp) hwords

/-- Splices of which two are joined and one does nothing, and a delta behind them. -/
theorem passes_chain_with_true_counts_joined :
    let asked : List Splice :=
      [⟨⟨3, 4⟩, []⟩, ⟨⟨1, 1⟩, ['x']⟩, ⟨⟨2, 2⟩, []⟩, ⟨⟨1, 1⟩, ['y', 'z']⟩]
    let first : Pass := ⟨4, [⟨⟨1, 1⟩, ['x', 'y', 'z']⟩, ⟨⟨3, 4⟩, []⟩]⟩
    let second : Pass := ⟨6, [⟨⟨0, 1⟩, []⟩]⟩
    let e : Edit := ⟨4, 5, [first, second]⟩
    e.Built ∧ e.lengthBefore + Pass.insertedBy e.passes ≤ greatestOffset ∧
      Pass.Chain 4 [first, second] 5 ∧ second.lengthAfter + 1 = 6 ∧
      Pass.tally 4 asked
        = .ok ⟨[⟨⟨⟨3, 4⟩, []⟩, 0⟩, ⟨⟨⟨1, 1⟩, ['x', 'y', 'z']⟩, 3⟩], 6⟩ := by
  intro asked first second e
  have hasked : Pass.ofSplices 4 asked = .ok first := rfl
  have hsplices : Edit.ofSplices 4 asked = .ok ⟨4, 6, [first]⟩ := rfl
  have hdelta : Delta.toEdit ⟨6, 5, [⟨0, ['a'], []⟩]⟩ = .ok ⟨6, 5, [second]⟩ := rfl
  have built : e.Built := .andThen (.ofSplices hsplices) (.ofDelta hdelta) rfl
  have words : e.lengthBefore + Pass.insertedBy e.passes ≤ greatestOffset := by decide
  obtain ⟨chain, -, kept⟩ := passes_chain_with_true_counts built words
  exact ⟨built, words, chain, (kept second (by decide)).balance,
    (kept first (by decide)).tallied asked hasked⟩

end Edit

end Marginalia
