import Marginalia.Proofs.Edit.Pieces

/-!
# Splices that conflict

Whether splices can be made at once is a question about any two of them. Two splices conflict if
they take away the same character, or if one puts text in strictly inside what the other takes away.
When splices are joined only neighbours are compared, and no conflict escapes that, since they are
joined in the order of their extents. The edit that they make does not depend on the order in which
they are given either, except that insertions at one offset are made in the given order.
-/

namespace Marginalia

namespace Splice

/-- The splice takes the character at index `i` away. -/
def Takes (s : Splice) (i : Nat) : Prop := s.extent.start ≤ i ∧ i < s.extent.stop

/-- The splice takes nothing away and stands strictly inside what `other` takes away. -/
def Splits (s other : Splice) : Prop :=
  s.extent.start = s.extent.stop ∧
    other.extent.start < s.extent.start ∧ s.extent.start < other.extent.stop

/-- The two splices cannot be made at once. -/
def Conflict (a b : Splice) : Prop := (∃ i, a.Takes i ∧ b.Takes i) ∨ a.Splits b ∨ b.Splits a

/-- The splices that put text in at `offset` and take nothing away, in the given order. -/
def insertionsAt (offset : Nat) (splices : List Splice) : List Splice :=
  splices.filter fun s => s.extent = .point offset ∧ s.text ≠ []

variable {length : Nat} {a b held : Splice} {rest splices asked others : List Splice}

/-- A conflict has no direction. -/
theorem Conflict.symm (h : Conflict a b) : Conflict b a := by
  obtain ⟨i, ha, hb⟩ | hsplits | hsplits := h
  · exact Or.inl ⟨i, hb, ha⟩
  · exact Or.inr (Or.inr hsplits)
  · exact Or.inr (Or.inl hsplits)

/-- Of two splices in the order of their extents, the first stops before the second starts exactly
if they do not conflict. -/
theorem stop_le_start_iff (ha : a.extent.start ≤ a.extent.stop)
    (hb : b.extent.start ≤ b.extent.stop) (hle : a.extent ≤ b.extent) :
    a.extent.stop ≤ b.extent.start ↔ ¬ Conflict a b := by
  rw [Extent.le_def] at hle
  simp only [Conflict, Takes, Splits]
  constructor
  · intro hclear hconflict
    obtain ⟨i, htakes⟩ | hsplits | hsplits := hconflict <;> omega
  · intro hfree
    by_contra hoverlap
    apply hfree
    by_cases hreplaces : b.extent.start < b.extent.stop
    · exact Or.inl ⟨b.extent.start, by omega, by omega⟩
    · exact Or.inr (Or.inr (by omega))

/-- Two splices at one extent conflict unless they are insertions. -/
theorem conflict_of_extent_eq (hextent : a.extent = b.extent)
    (hreplaces : a.extent.start < a.extent.stop) : Conflict a b := by
  have ha : a.Takes a.extent.start := ⟨Nat.le_refl _, hreplaces⟩
  have hb : b.Takes a.extent.start := by rwa [Takes, ← hextent]
  exact Or.inl ⟨a.extent.start, ha, hb⟩

/-- Splices that stand apart can be joined, whatever splice is in front of them. -/
theorem exists_joinAfter
    (apart : (held :: rest).Pairwise fun a b => a.extent.stop ≤ b.extent.start) :
    ∃ joined, joinAfter held rest = .ok joined := by
  induction rest generalizing held with
  | nil => exact ⟨[held], rfl⟩
  | cons s rest ih =>
    obtain ⟨hahead, hrest⟩ := List.pairwise_cons.mp apart
    obtain ⟨hclear, hbehind⟩ := List.forall_mem_cons.mp hahead
    rw [joinAfter, if_neg (Nat.not_lt_of_le hclear)]
    split
    case isTrue =>
      exact ih (List.pairwise_cons.mpr ⟨hbehind, hrest.of_cons⟩)
    case isFalse =>
      obtain ⟨behind, hjoin⟩ := ih hrest
      exact ⟨held :: behind, by rw [hjoin]; rfl⟩

/-- Splices that are ready can be joined exactly if no two of them conflict. -/
theorem Ready.exists_join_iff (ready : Ready length splices) :
    (∃ joined, join splices = .ok joined) ↔ splices.Pairwise fun a b => ¬ Conflict a b := by
  have happart : splices.Pairwise (fun a b => a.extent.stop ≤ b.extent.start) ↔
      splices.Pairwise fun a b => ¬ Conflict a b := by
    have hascends := List.pairwise_iff_getElem.mp ready.ascends
    rw [List.pairwise_iff_getElem, List.pairwise_iff_getElem]
    apply forall₅_congr
    intro i j hi hj hij
    have hordered (k : Nat) (hk : k < splices.length) :=
      (ready.sound splices[k] (List.getElem_mem hk)).1
    exact stop_le_start_iff (hordered i hi) (hordered j hj) (hascends i j hi hj hij)
  rw [← happart]
  constructor
  · rintro ⟨joined, hjoin⟩
    exact ready.apart hjoin
  · intro apart
    cases splices with
    | nil => exact ⟨[], rfl⟩
    | cons s rest => exact exists_joinAfter apart

/-- No two splices conflict in order exactly if no two of those that do something conflict. -/
theorem pairwise_inOrder_iff (asked : List Splice) :
    ((inOrder asked).Pairwise fun a b => ¬ Conflict a b) ↔
      (asked.filter (!·.isIdle)).Pairwise fun a b => ¬ Conflict a b :=
  (isSortedBy_inOrder asked).perm.pairwise_iff fun hfree hconflict => hfree hconflict.symm

/-- Of splices that take away the same characters there is no more than one if none conflict, so
that they have one order only. -/
theorem eq_of_perm_of_extent {e : Extent} (hreplaces : e.start < e.stop)
    (hsplices : ∀ s ∈ splices, s.extent = e) (free : splices.Pairwise fun a b => ¬ Conflict a b)
    (hperm : splices.Perm others) : splices = others := by
  cases splices with
  | nil => exact (List.nil_perm.mp hperm).symm
  | cons a rest =>
    cases rest with
    | nil => exact (List.perm_singleton.mp hperm.symm).symm
    | cons b rest =>
      have ha := hsplices a List.mem_cons_self
      have hb := hsplices b (List.mem_cons_of_mem _ List.mem_cons_self)
      have hconflict : Conflict a b := conflict_of_extent_eq (ha.trans hb.symm) (by rwa [ha])
      exact absurd hconflict ((List.pairwise_cons.mp free).1 b List.mem_cons_self)

/-- The insertions at an offset that do something, among those that do something at all. -/
theorem insertionsAt_eq_filter (offset : Nat) (splices : List Splice) :
    insertionsAt offset splices =
      (splices.filter (!·.isIdle)).filter (·.extent = .point offset) := by
  rw [insertionsAt, List.filter_filter]
  apply List.filter_congr
  intro s _
  by_cases hat : s.extent = .point offset
  · cases htext : s.text <;> simp [hat, htext, isIdle, Extent.isEmpty, Extent.point]
  · simp [hat]

/-- Splices that fit and do not conflict are the same in order, however they are given, as long as
insertions at one offset keep theirs. -/
theorem inOrder_eq_of_perm
    (hfits : ∀ s ∈ asked, s.extent.start ≤ s.extent.stop ∧ s.extent.stop ≤ length)
    (free : (asked.filter (!·.isIdle)).Pairwise fun a b => ¬ Conflict a b)
    (hperm : asked.Perm others)
    (ties : ∀ offset, insertionsAt offset asked = insertionsAt offset others) :
    inOrder asked = inOrder others := by
  have hasked := isSortedBy_inOrder asked
  have hothers := isSortedBy_inOrder others
  apply eq_of_ascending_of_ties hasked.ascends hothers.ascends
  intro e
  rw [hasked.ties, hothers.ties]
  rcases Nat.lt_trichotomy e.start e.stop with hreplaces | hpoint | hinverted
  · have hextent : ∀ s ∈ (asked.filter (!·.isIdle)).filter (·.extent = e), s.extent = e :=
      fun s hs => of_decide_eq_true (List.mem_filter.mp hs).2
    exact eq_of_perm_of_extent hreplaces hextent (free.filter _) ((hperm.filter _).filter _)
  · have he : e = .point e.start := Extent.eq_of_start_of_stop rfl hpoint.symm
    have htie := ties e.start
    rwa [insertionsAt_eq_filter, insertionsAt_eq_filter, ← he] at htie
  · -- nothing that fits has an inverted extent
    have hnone (given : List Splice) (hgiven : ∀ s ∈ given, s ∈ asked) :
        (given.filter (!·.isIdle)).filter (·.extent = e) = [] := by
      simp only [List.filter_eq_nil_iff, List.mem_filter, decide_eq_true_eq]
      rintro s ⟨hs, -⟩ rfl
      exact absurd (hfits s (hgiven s hs)).1 (Nat.not_le_of_lt hinverted)
    rw [hnone asked fun _ hs => hs, hnone others fun _ hs => hperm.mem_iff.mpr hs]

end Splice

namespace Pass

open Splice

variable {length : Nat} {asked others : List Splice}

/-- Splices can be made at once exactly if each fits the text and no two that do something
conflict. -/
theorem exists_ofSplices_iff :
    (∃ p, ofSplices length asked = .ok p) ↔
      (∀ s ∈ asked, s.extent.start ≤ s.extent.stop ∧ s.extent.stop ≤ length) ∧
        (asked.filter (!·.isIdle)).Pairwise fun a b => ¬ Conflict a b := by
  rw [← pairwise_inOrder_iff]
  constructor
  · rintro ⟨p, made⟩
    obtain ⟨hfits, hjoin, -⟩ := ofSplices_eq_ok_iff.mp made
    exact ⟨hfits, (ready_inOrder hfits).exists_join_iff.mp ⟨p.splices, hjoin⟩⟩
  · rintro ⟨hfits, free⟩
    obtain ⟨joined, hjoin⟩ := (ready_inOrder hfits).exists_join_iff.mpr free
    exact ⟨⟨length, joined⟩, ofSplices_eq_ok_iff.mpr ⟨hfits, hjoin, rfl⟩⟩

/-- A pass that was made is also made of the splices in another order, as long as insertions at one
offset keep theirs. -/
theorem ofSplices_of_perm {p : Pass} (made : ofSplices length asked = .ok p)
    (hperm : asked.Perm others)
    (ties : ∀ offset, insertionsAt offset asked = insertionsAt offset others) :
    ofSplices length others = .ok p := by
  obtain ⟨hfits, hjoin, hlength⟩ := ofSplices_eq_ok_iff.mp made
  have hfree := (exists_ofSplices_iff.mp ⟨p, made⟩).2
  rw [inOrder_eq_of_perm hfits hfree hperm ties] at hjoin
  exact ofSplices_eq_ok_iff.mpr ⟨fun s hs => hfits s (hperm.mem_iff.mpr hs), hjoin, hlength⟩

end Pass

namespace Edit

open Splice

/-- An edit is made of splices exactly if each of them fits the text and no two that do something
conflict. In whatever order the splices are given, as long as insertions at one offset keep theirs,
the same edit is made of them or none is. -/
theorem ofSplices_accepts_conflict_free (length : Nat) (asked : List Splice) :
    ((∃ e, ofSplices length asked = .ok e) ↔
      (∀ s ∈ asked, s.extent.start ≤ s.extent.stop ∧ s.extent.stop ≤ length) ∧
        (asked.filter (!·.isIdle)).Pairwise fun a b => ¬ Conflict a b) ∧
    ∀ others, asked.Perm others →
      (∀ offset, insertionsAt offset asked = insertionsAt offset others) →
      ∀ e, ofSplices length asked = .ok e ↔ ofSplices length others = .ok e := by
  refine ⟨?_, fun others hperm ties e => ?_⟩
  · rw [← Pass.exists_ofSplices_iff]
    constructor
    · rintro ⟨e, made⟩
      obtain ⟨p, hpass, -⟩ := ofSplices_eq_ok_iff.mp made
      exact ⟨p, hpass⟩
    · rintro ⟨p, hpass⟩
      exact ⟨_, ofSplices_eq_ok_iff.mpr ⟨p, hpass, rfl⟩⟩
  · rw [ofSplices_eq_ok_iff, ofSplices_eq_ok_iff]
    constructor
    · rintro ⟨p, hpass, rfl⟩
      exact ⟨p, Pass.ofSplices_of_perm hpass hperm ties, rfl⟩
    · rintro ⟨p, hpass, rfl⟩
      exact ⟨p, Pass.ofSplices_of_perm hpass hperm.symm fun offset => (ties offset).symm, rfl⟩

/-- A deletion between two insertions, one of which is made of two, given in another order. -/
theorem ofSplices_accepts_conflict_free_reordered :
    let asked : List Splice :=
      [⟨⟨1, 3⟩, []⟩, ⟨⟨3, 3⟩, ['!']⟩, ⟨⟨1, 1⟩, ['x']⟩, ⟨⟨1, 1⟩, ['y']⟩]
    let others : List Splice :=
      [⟨⟨1, 1⟩, ['x']⟩, ⟨⟨3, 3⟩, ['!']⟩, ⟨⟨1, 1⟩, ['y']⟩, ⟨⟨1, 3⟩, []⟩]
    asked.Perm others ∧ (∀ offset, insertionsAt offset asked = insertionsAt offset others) ∧
      ∃ e, ofSplices 4 asked = .ok e ∧ ofSplices 4 others = .ok e ∧
        (asked.filter (!·.isIdle)).Pairwise fun a b => ¬ Conflict a b := by
  intro asked others
  have hperm : asked.Perm others := by decide
  have ties : ∀ offset, insertionsAt offset asked = insertionsAt offset others := by
    intro offset
    simp only [insertionsAt, asked, others, Extent.point, List.filter_cons, Extent.mk.injEq]
    by_cases hfirst : 1 = offset
    · simp [← hfirst]
    · simp [hfirst]
  obtain ⟨haccepts, hsame⟩ := ofSplices_accepts_conflict_free 4 asked
  have made : ofSplices 4 asked = .ok ⟨4, 5, [⟨4, [⟨⟨1, 1⟩, ['x', 'y']⟩, ⟨⟨1, 3⟩, []⟩,
    ⟨⟨3, 3⟩, ['!']⟩]⟩]⟩ := rfl
  exact ⟨hperm, ties, _, made, (hsame others hperm ties _).mp made, (haccepts.mp ⟨_, made⟩).2⟩

end Edit

end Marginalia
