import Mathlib.Data.List.Basic
import Marginalia.Proofs.Edit.Turns

/-!
# What joining keeps

Joining makes one insertion of all the insertions at an offset and leaves every other splice as
it is. Whatever is computed along the splices from the last to the first comes out the same for
the joined ones, if two insertions at one offset count as the one that they make.
-/

namespace Marginalia

namespace Splice

variable {β : Type} {length pos offset : Nat} {held : Splice}
  {rest splices others joined : List Splice}

/-- Splices that could be joined do not overlap, the one in front included. -/
theorem Ready.apart_of_joinAfter (ready : Ready length (held :: rest))
    (h : joinAfter held rest = .ok joined) :
    (held :: rest).Pairwise fun a b => a.extent.stop ≤ b.extent.start := by
  induction rest generalizing held joined with
  | nil => exact List.pairwise_singleton _ _
  | cons s rest ih =>
    obtain ⟨hordered, -⟩ := ready.tail.sound s List.mem_cons_self
    rcases joinAfter_cases hordered h with ⟨heq, hpoint, hmerged⟩ | ⟨behind, hbehind, -, hclear, -⟩
    · have hrest := ih ready.absorb hmerged
      obtain ⟨hahead, hapart⟩ := List.pairwise_cons.mp hrest
      rw [heq] at hahead
      refine List.pairwise_cons.mpr ⟨?_, List.pairwise_cons.mpr ⟨hahead, hapart⟩⟩
      rw [heq]
      exact List.forall_mem_cons.mpr ⟨Nat.le_of_eq hpoint.symm, hahead⟩
    · have hrest := ih ready.tail hbehind
      refine List.pairwise_cons.mpr ⟨List.forall_mem_cons.mpr ⟨hclear, fun next hnext => ?_⟩, hrest⟩
      have hnextle := (List.pairwise_cons.mp hrest).1 next hnext
      omega

/-- Splices that could be joined do not overlap. -/
theorem Ready.apart (ready : Ready length splices) (h : join splices = .ok joined) :
    splices.Pairwise fun a b => a.extent.stop ≤ b.extent.start := by
  cases splices with
  | nil => exact List.Pairwise.nil
  | cons s rest => exact ready.apart_of_joinAfter h

/-- Two insertions at one offset, made where the splices behind them have led, count as the one
insertion that they make. -/
def Merges (length : Nat) (f : Splice → β → β) (b : β) : Prop :=
  ∀ offset ≤ length, ∀ (text more : Text) (behind : List Splice),
    (∀ s ∈ behind, offset ≤ s.extent.start) →
    f ⟨.point offset, text⟩ (f ⟨.point offset, more⟩ (behind.foldr f b)) =
      f ⟨.point offset, text ++ more⟩ (behind.foldr f b)

/-- What counts two insertions at one offset as one comes out the same after joining, the splice
in front included. -/
theorem Ready.foldr_joinAfter {f : Splice → β → β} {b : β} (ready : Ready length (held :: rest))
    (merges : Merges length f b) (h : joinAfter held rest = .ok joined) :
    joined.foldr f b = (held :: rest).foldr f b := by
  induction rest generalizing held joined with
  | nil =>
    obtain rfl : [held] = joined := Except.ok.inj h
    rfl
  | cons s rest ih =>
    obtain ⟨hordered, hfits⟩ := ready.tail.sound s List.mem_cons_self
    rcases joinAfter_cases hordered h with ⟨heq, hpoint, hmerged⟩ | ⟨behind, hbehind, rfl, -, -⟩
    · have hahead : ∀ next ∈ rest, s.extent.start ≤ next.extent.start := fun next hnext => by
        have hle := (List.pairwise_cons.mp ready.tail.ascends).1 next hnext
        rw [Extent.le_def] at hle
        omega
      have hextent : s.extent = .point s.extent.start :=
        Extent.eq_of_start_of_stop rfl hpoint.symm
      have hmerge := merges s.extent.start (by omega) held.text s.text rest hahead
      rw [← hextent] at hmerge
      calc joined.foldr f b = f ⟨held.extent, held.text ++ s.text⟩ (rest.foldr f b) :=
            ih ready.absorb hmerged
        _ = f ⟨s.extent, held.text⟩ (f s (rest.foldr f b)) := by rw [heq, hmerge]
        _ = f held (f s (rest.foldr f b)) := by rw [← heq]
    · rw [List.foldr_cons, ih ready.tail hbehind]
      rfl

/-- What counts two insertions at one offset as one comes out the same after joining. -/
theorem Ready.foldr_join {f : Splice → β → β} {b : β} (ready : Ready length splices)
    (merges : Merges length f b) (h : join splices = .ok joined) :
    joined.foldr f b = splices.foldr f b := by
  cases splices with
  | nil =>
    obtain rfl : [] = joined := Except.ok.inj h
    rfl
  | cons s rest => exact ready.foldr_joinAfter merges h

/-- An insertion moves what is behind it, and what is at it on the side after inserted text. -/
theorem turn_point_on (offset : Nat) (text : Text) (q : Nat) (side : Side) :
    (turn ⟨.point offset, text⟩ q).on side =
      if q < offset ∨ q = offset ∧ side = .before then q else q + text.length := by
  let s : Splice := ⟨.point offset, text⟩
  have hstart : s.extent.start = offset := rfl
  have hstop : s.extent.stop = offset := rfl
  change (s.turn q).on side = _
  rcases Nat.lt_trichotomy q offset with hlt | rfl | hgt
  · rw [turn_of_lt hlt, Landing.on_fixed, if_pos (Or.inl hlt)]
  · rw [turn_of_meets (Nat.lt_irrefl q) (by omega)]
    cases side with
    | before => simp [Landing.on, s, Extent.point]
    | after => simp [Landing.on, s, Extent.point]
  · rw [turn_of_past (Nat.le_refl offset) (Or.inl hgt), Landing.on_fixed, if_neg (by omega), hstart,
      hstop]
    change offset + text.length + (q - offset) = _
    omega

/-- An insertion loses no position. -/
theorem turn_point_on? (offset : Nat) (text : Text) (q : Nat) (side : Side) :
    (turn ⟨.point offset, text⟩ q).on? side = some ((turn ⟨.point offset, text⟩ q).on side) := by
  refine if_neg fun hlost => ?_
  have hinside := (turn_lost_iff (Nat.le_refl offset)).mp hlost
  exact absurd hinside.2 (Nat.lt_asymm hinside.1)

/-- Two insertions at one offset carry a position as the one that they make. -/
theorem turn_point_append (offset : Nat) (text more : Text) (q : Nat) (side : Side) :
    (turn ⟨.point offset, text⟩ ((turn ⟨.point offset, more⟩ q).on side)).on side =
      (turn ⟨.point offset, text ++ more⟩ q).on side := by
  simp only [turn_point_on, List.length_append]
  by_cases hstays : q < offset ∨ q = offset ∧ side = .before
  · simp only [if_pos hstays]
  · have hmoves : ¬ (q + more.length < offset ∨ q + more.length = offset ∧ side = .before) := by
      intro hback
      refine hstays ?_
      rcases hback with hlt | ⟨heq, hside⟩
      · exact Or.inl (by omega)
      · rcases Nat.lt_or_ge q offset with hlt | hge
        · exact Or.inl hlt
        · exact Or.inr ⟨by omega, hside⟩
    simp only [if_neg hstays, if_neg hmoves]
    omega

/-- Joined splices carry a position as the splices do. -/
theorem Ready.turns_join (ready : Ready length splices) (h : join splices = .ok joined)
    (side : Side) (pos : Nat) : turns side joined pos = turns side splices pos :=
  ready.foldr_join (fun offset _ text more _ _ => turn_point_append offset text more _ side) h

/-- Joined splices lose the positions that the splices lose. -/
theorem Ready.turns?_join (ready : Ready length splices) (h : join splices = .ok joined)
    (side : Side) (pos : Nat) : turns? side joined pos = turns? side splices pos := by
  refine ready.foldr_join (fun offset _ text more behind _ => ?_) h
  cases behind.foldr (fun s pos => pos.bind fun pos => (s.turn pos).on? side) (some pos) with
  | none => rfl
  | some q => simp only [Option.bind_some, turn_point_on?, turn_point_append]

/-- Replacing behind an offset leaves the text up to the offset there. -/
theorem le_length_foldr_replace {t : Text} (hbehind : ∀ s ∈ splices, offset ≤ s.extent.start)
    (ht : offset ≤ t.length) :
    offset ≤
      (splices.foldr (fun s t => t.replace s.extent.start s.extent.stop s.text) t).length := by
  induction splices with
  | nil => exact ht
  | cons s rest ih =>
    obtain ⟨hs, hrest⟩ := List.forall_mem_cons.mp hbehind
    have hlength := ih hrest
    rw [List.foldr_cons]
    generalize rest.foldr (fun s t => t.replace s.extent.start s.extent.stop s.text) t = behind
      at hlength
    simp only [Text.replace, List.length_append, List.length_take]
    omega

/-- Two insertions at an offset of a text put in what the one that they make puts in. -/
theorem replace_point_append {t : Text} (ht : offset ≤ t.length) (text more : Text) :
    (t.replace offset offset more).replace offset offset text =
      t.replace offset offset (text ++ more) := by
  have hfront : (t.take offset).length = offset := List.length_take_of_le ht
  simp only [Text.replace, List.append_assoc]
  rw [List.take_append_of_le_length (by omega), List.drop_append_of_le_length (by omega),
    List.take_take, Nat.min_self, List.drop_of_length_le (by omega), List.nil_append]

/-- Joined splices, made from the last to the first, give the text that the splices give. -/
theorem Ready.replace_join {t : Text} (ready : Ready t.length splices)
    (h : join splices = .ok joined) :
    joined.foldr (fun s t => t.replace s.extent.start s.extent.stop s.text) t =
      splices.foldr (fun s t => t.replace s.extent.start s.extent.stop s.text) t :=
  ready.foldr_join (fun _ hoffset text more _ hbehind =>
    replace_point_append (le_length_foldr_replace hbehind hoffset) text more) h

/-- Joining leaves the splices that are no insertions as they are. -/
theorem Ready.mem_join_iff (ready : Ready length splices) (h : join splices = .ok joined)
    {s : Splice} (hreplaces : s.extent.start < s.extent.stop) : s ∈ joined ↔ s ∈ splices := by
  have hinsertion : s.isInsertion = false := by
    simp only [isInsertion, Extent.isEmpty, beq_eq_false_iff_ne]
    omega
  have hfilter : joined.filter (!·.isInsertion) = splices.filter (!·.isInsertion) := by
    rw [List.filter_eq_foldr, List.filter_eq_foldr]
    refine ready.foldr_join (fun offset _ text more behind _ => ?_) h
    simp [isInsertion, Extent.isEmpty, Extent.point]
  have hmem : s ∈ joined.filter (!·.isInsertion) ↔ s ∈ splices.filter (!·.isInsertion) := by
    rw [hfilter]
  simpa [hinsertion] using hmem

/-- What a count comes to over splices. -/
def total (count : Splice → Nat) (splices : List Splice) : Nat :=
  splices.foldr (fun s n => count s + n) 0

/-- The first splice counts first. -/
theorem total_cons (count : Splice → Nat) (s : Splice) (rest : List Splice) :
    total count (s :: rest) = count s + total count rest := rfl

/-- What splices put in, as a count over them. -/
theorem inserted_eq_total (splices : List Splice) :
    inserted splices = total (·.text.length) splices := by
  induction splices with
  | nil => rfl
  | cons s rest ih => rw [inserted, total_cons, ih]

/-- What splices of some kind put in, as a count over all splices. -/
theorem inserted_filter_eq_total (counts : Splice → Prop) [DecidablePred counts]
    (splices : List Splice) : inserted (splices.filter fun s => counts s) =
      total (fun s => if counts s then s.text.length else 0) splices := by
  induction splices with
  | nil => rfl
  | cons s rest ih => rw [inserted_filter_cons, total_cons, ih]

/-- What splices take away, as a count over them. -/
theorem removed_eq_total (splices : List Splice) :
    removed splices = total removedLength splices := by
  induction splices with
  | nil => rfl
  | cons s rest ih => rw [removed, total_cons, ih]

/-- A count that counts two insertions at one offset as much as the one that they make comes to the
same over joined splices. -/
theorem Ready.total_join (ready : Ready length splices) (h : join splices = .ok joined)
    {count : Splice → Nat} (merges : ∀ offset text more,
      count ⟨.point offset, text⟩ + count ⟨.point offset, more⟩ =
        count ⟨.point offset, text ++ more⟩) :
    total count joined = total count splices := by
  refine ready.foldr_join (fun offset _ text more behind _ => ?_) h
  rw [← merges, Nat.add_assoc]

/-- Joined splices put as many characters on extents of some kind as the splices do. -/
theorem Ready.inserted_filter_join (ready : Ready length splices) (h : join splices = .ok joined)
    (counts : Extent → Prop) [DecidablePred counts] :
    inserted (joined.filter fun s => counts s.extent) =
      inserted (splices.filter fun s => counts s.extent) := by
  rw [inserted_filter_eq_total fun s => counts s.extent,
    inserted_filter_eq_total fun s => counts s.extent]
  refine ready.total_join h fun offset text more => ?_
  split
  · exact List.length_append.symm
  · rfl

/-- Joined splices put in as many characters as the splices do. -/
theorem Ready.inserted_join (ready : Ready length splices) (h : join splices = .ok joined) :
    inserted joined = inserted splices := by
  rw [inserted_eq_total, inserted_eq_total]
  exact ready.total_join h fun _ _ _ => List.length_append.symm

/-- Joined splices take away as many characters as the splices do. -/
theorem Ready.removed_join (ready : Ready length splices) (h : join splices = .ok joined) :
    removed joined = removed splices := by
  rw [removed_eq_total, removed_eq_total]
  refine ready.total_join h fun offset text more => ?_
  simp [removedLength, Extent.point]

/-- What closes up does so by the splices that are no insertions. -/
theorem closesUp_congr (h : ∀ s : Splice, s.extent.start < s.extent.stop →
    (s ∈ splices ↔ s ∈ others)) (start pos : Nat) :
    ClosesUp splices start pos ↔ ClosesUp others start pos := by
  have hspare : ∀ i, Spare i splices ↔ Spare i others := fun i =>
    ⟨fun spared s hs hgone => spared s ((h s (by omega)).mpr hs) hgone,
      fun spared s hs hgone => spared s ((h s (by omega)).mp hs) hgone⟩
  simp only [ClosesUp, hspare]
  refine and_congr_right fun _ => ⟨fun hempty s hs hstart hreplaces => ?_,
    fun hempty s hs hstart hreplaces => ?_⟩
  · exact hempty s ((h s hreplaces).mpr hs) hstart hreplaces
  · exact hempty s ((h s hreplaces).mp hs) hstart hreplaces

/-- Which splices meet a position from behind depends on those that are no insertions. -/
theorem heldBack_eq (h : ∀ s : Splice, s.extent.start < s.extent.stop →
    (s ∈ splices ↔ s ∈ others)) (pos : Nat) :
    heldBack splices pos = inserted (splices.filter fun s => MeetsBehind others pos s.extent) := by
  refine congrArg _ (List.filter_congr fun s _ => ?_)
  have hmeets : MeetsBehind splices pos s.extent ↔ MeetsBehind others pos s.extent := by
    rw [MeetsBehind, MeetsBehind, closesUp_congr h]
  simp only [hmeets]

/-- Joined splices hold back what the splices hold back. -/
theorem Ready.heldBack_join (ready : Ready length splices) (h : join splices = .ok joined)
    (pos : Nat) : heldBack joined pos = heldBack splices pos := by
  rw [heldBack_eq (fun s => ready.mem_join_iff h) pos, heldBack]
  exact ready.inserted_filter_join h _

/-- A splice that is no insertion does something. -/
theorem isIdle_of_lt {s : Splice} (h : s.extent.start < s.extent.stop) : s.isIdle = false := by
  simp only [isIdle, Extent.isEmpty, Bool.and_eq_false_iff, beq_eq_false_iff_ne]
  exact Or.inl (by omega)

/-- A count comes to the same over splices in another order. -/
theorem total_perm (count : Splice → Nat) (h : splices.Perm others) :
    total count splices = total count others := by
  induction h with
  | nil => rfl
  | cons s _ ih => rw [total_cons, total_cons, ih]
  | swap s next rest => simp only [total_cons, Nat.add_left_comm]
  | trans _ _ first second => exact first.trans second

/-- A count that leaves out splices that do nothing comes to the same over the splices in order. -/
theorem total_inOrder {count : Splice → Nat} (idle : ∀ s, s.isIdle = true → count s = 0)
    (asked : List Splice) : total count (inOrder asked) = total count asked := by
  have hbusy : total count (asked.filter (!·.isIdle)) = total count asked := by
    induction asked with
    | nil => rfl
    | cons s rest ih =>
      cases hs : s.isIdle with
      | false => rw [List.filter_cons_of_pos (by simp [hs]), total_cons, total_cons, ih]
      | true => rw [List.filter_cons_of_neg (by simp [hs]), total_cons, idle s hs, Nat.zero_add, ih]
  rw [← hbusy]
  exact total_perm count ((sortByExtent_perm Splice.extent asked).filter _)

/-- A splice that does nothing puts nothing in. -/
theorem text_eq_nil_of_isIdle {s : Splice} (h : s.isIdle = true) : s.text = [] := by
  rw [isIdle, Bool.and_eq_true, List.isEmpty_iff] at h
  exact h.2

/-- Splices hold back what they hold back in order. -/
theorem heldBack_inOrder (asked : List Splice) (pos : Nat) :
    heldBack (inOrder asked) pos = heldBack asked pos := by
  have hmem : ∀ s : Splice, s.extent.start < s.extent.stop → (s ∈ inOrder asked ↔ s ∈ asked) :=
    fun s hreplaces => by rw [mem_inOrder, and_iff_left (isIdle_of_lt hreplaces)]
  rw [heldBack_eq hmem, heldBack, inserted_filter_eq_total, inserted_filter_eq_total]
  refine total_inOrder (fun s hs => ?_) asked
  simp [text_eq_nil_of_isIdle hs]

/-- Where joined splices crowd a position, the splices do. -/
theorem Ready.crowded_of_join (ready : Ready length splices) (h : join splices = .ok joined)
    (crowded : Crowded joined pos) : Crowded splices pos := by
  obtain ⟨⟨s, hs, hpoint, hinserts⟩, replacement, hreplacement, hstart, hstop, hreplaces⟩ := crowded
  refine ⟨Classical.byContradiction fun hnone => hinserts ?_, replacement,
    (ready.mem_join_iff h (by omega)).mp hreplacement, hstart, hstop, hreplaces⟩
  have hbare : inserted (splices.filter fun s => s.extent = .point pos) = 0 := by
    refine inserted_eq_zero_iff.mpr fun other hother => ?_
    obtain ⟨hmem, hat⟩ := List.mem_filter.mp hother
    exact Classical.byContradiction fun hputs =>
      hnone ⟨other, hmem, of_decide_eq_true hat, hputs⟩
  rw [← ready.inserted_filter_join h (· = .point pos)] at hbare
  exact inserted_eq_zero_iff.mp hbare s (List.mem_filter.mpr ⟨hs, decide_eq_true hpoint⟩)

end Splice

end Marginalia
