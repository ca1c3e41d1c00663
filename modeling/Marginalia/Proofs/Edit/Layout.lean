import Marginalia.Edit.Delta

/-!
# The layout of edits

Whatever way an edit is made, its splices stand in line: inside the text, apart from each other,
each doing something, and no two on one extent. Its passes form a chain, each for texts of the
length that the pass before it leaves. `Edit.Built` lists the ways to make an edit, and
`Edit.Built.wellFormed` says that all of them keep this layout: since a delta only appends edits of
single splices, an induction has edits without passes, edits of splices and chained edits to look at
(`Edit.Built.induct`). The texts of the splices are arbitrary here; only their lengths are counted.
-/

namespace Marginalia

/-- What a changed computation gives is what the computation gives, changed. -/
theorem exists_of_map_eq_ok {ε α β : Type} {f : α → β} {x : Except ε α} {b : β}
    (h : x.map f = .ok b) : ∃ a, x = .ok a ∧ f a = b := by
  cases x with
  | error error => exact absurd h nofun
  | ok a => exact ⟨a, rfl, Except.ok.inj h⟩

namespace Splice

/-- The number of characters that a splice takes away. -/
def removedLength (s : Splice) : Nat := s.extent.stop - s.extent.start

/-- The number of characters that splices take away together. -/
def removed : List Splice → Nat
  | [] => 0
  | s :: rest => s.removedLength + removed rest

/-- The number of characters that splices put in together. -/
def inserted : List Splice → Nat
  | [] => 0
  | s :: rest => s.text.length + inserted rest

/-- The first splice counts among those of some kind if it is of that kind. -/
theorem inserted_filter_cons (counts : Splice → Prop) [DecidablePred counts] (s : Splice)
    (rest : List Splice) : inserted ((s :: rest).filter fun s => counts s) =
      (if counts s then s.text.length else 0) + inserted (rest.filter fun s => counts s) := by
  rw [List.filter_cons]
  by_cases hs : counts s
  · rw [if_pos (decide_eq_true hs), if_pos hs, inserted]
  · rw [if_neg (by simpa using hs), if_neg hs, Nat.zero_add]

/-- Splices put nothing in together exactly if none of them does. -/
theorem inserted_eq_zero_iff {splices : List Splice} :
    inserted splices = 0 ↔ ∀ s ∈ splices, s.text = [] := by
  induction splices with
  | nil => simp [inserted]
  | cons s rest ih => simp [inserted, ih]

/-- Splices of a text of `length` characters that stand one after another from offset `old` on.
Two insertions at one offset would have the same extent, which is excluded. -/
structure InLine (old length : Nat) (splices : List Splice) : Prop where
  ahead : ∀ s ∈ splices, old ≤ s.extent.start
  ordered : ∀ s ∈ splices, s.extent.start ≤ s.extent.stop
  inside : ∀ s ∈ splices, s.extent.stop ≤ length
  busy : ∀ s ∈ splices, s.isIdle = false
  apart : splices.Pairwise fun a b => a.extent.stop ≤ b.extent.start ∧ a.extent ≠ b.extent

/-- No splices stand in line anywhere. -/
theorem inLine_nil (old length : Nat) : InLine old length [] :=
  ⟨nofun, nofun, nofun, nofun, List.Pairwise.nil⟩

/-- Behind the first splice the others stand in line. -/
theorem InLine.tail {old length : Nat} {s : Splice} {rest : List Splice}
    (h : InLine old length (s :: rest)) : InLine s.extent.stop length rest where
  ahead := fun next hnext => ((List.pairwise_cons.mp h.apart).1 next hnext).1
  ordered := fun next hnext => h.ordered next (List.mem_cons_of_mem _ hnext)
  inside := fun next hnext => h.inside next (List.mem_cons_of_mem _ hnext)
  busy := fun next hnext => h.busy next (List.mem_cons_of_mem _ hnext)
  apart := (List.pairwise_cons.mp h.apart).2

/-- The first of splices in line lies between `old` and the end of the text. -/
theorem InLine.head {old length : Nat} {s : Splice} {rest : List Splice}
    (h : InLine old length (s :: rest)) :
    old ≤ s.extent.start ∧ s.extent.start ≤ s.extent.stop ∧ s.extent.stop ≤ length :=
  ⟨h.ahead s List.mem_cons_self, h.ordered s List.mem_cons_self, h.inside s List.mem_cons_self⟩

/-- Put a splice in front of splices in line that come after it in the order of extents. -/
theorem InLine.cons {old length : Nat} {s : Splice} {rest : List Splice}
    (start : old ≤ s.extent.start) (stop : s.extent.start ≤ s.extent.stop)
    (fits : s.extent.stop ≤ length) (busy : s.isIdle = false)
    (behind : InLine s.extent.stop length rest) (fresh : ∀ next ∈ rest, s.extent ≠ next.extent) :
    InLine old length (s :: rest) where
  ahead := by
    intro next hnext
    rcases List.mem_cons.mp hnext with rfl | hnext
    · exact start
    · have hahead := behind.ahead next hnext
      omega
  ordered := List.forall_mem_cons.mpr ⟨stop, behind.ordered⟩
  inside := List.forall_mem_cons.mpr ⟨fits, behind.inside⟩
  busy := List.forall_mem_cons.mpr ⟨busy, behind.busy⟩
  apart := List.pairwise_cons.mpr
    ⟨fun next hnext => ⟨behind.ahead next hnext, fresh next hnext⟩, behind.apart⟩

/-- Splices in line take away no more than there is from `old` on. -/
theorem InLine.old_add_removed_le {old length : Nat} {splices : List Splice}
    (h : InLine old length splices) (hold : old ≤ length) : old + removed splices ≤ length := by
  induction splices generalizing old with
  | nil => simpa [removed] using hold
  | cons s rest ih =>
    obtain ⟨hstart, hstop, hfits⟩ := h.head
    have hrest := ih h.tail hfits
    simp only [removed, removedLength]
    omega

/-- A splice that does something still does when it inserts more. -/
theorem isIdle_append {s : Splice} (h : s.isIdle = false) (more : Text) :
    isIdle ⟨s.extent, s.text ++ more⟩ = false := by
  rw [isIdle, Bool.and_eq_false_iff] at h ⊢
  refine h.imp_right fun htext => ?_
  rw [List.isEmpty_eq_false_iff] at htext ⊢
  exact List.append_ne_nil_of_left_ne_nil htext _

/-- The splices that do something, in the order of their extents. -/
def inOrder (asked : List Splice) : List Splice :=
  (sortByExtent Splice.extent asked).filter (!·.isIdle)

/-- Putting splices in order drops those that do nothing. -/
theorem mem_inOrder {asked : List Splice} {s : Splice} :
    s ∈ inOrder asked ↔ s ∈ asked ∧ s.isIdle = false := by
  rw [inOrder, List.mem_filter, (sortByExtent_perm _ _).mem_iff, Bool.not_eq_true']

/-- Splices of a text of `length` characters that are ready to be joined: in the order of their
extents, each inside the text and doing something. -/
structure Ready (length : Nat) (splices : List Splice) : Prop where
  ascends : splices.Pairwise fun a b => a.extent ≤ b.extent
  sound : ∀ s ∈ splices, s.extent.start ≤ s.extent.stop ∧ s.extent.stop ≤ length
  busy : ∀ s ∈ splices, s.isIdle = false

/-- Splices that fit the text are ready in order. -/
theorem ready_inOrder {length : Nat} {asked : List Splice}
    (h : ∀ s ∈ asked, s.extent.start ≤ s.extent.stop ∧ s.extent.stop ≤ length) :
    Ready length (inOrder asked) where
  ascends := (sortByExtent_pairwise _ _).filter _
  sound := fun s hs => h s (mem_inOrder.mp hs).1
  busy := fun _ hs => (mem_inOrder.mp hs).2

/-- Behind the first splice the others are ready. -/
theorem Ready.tail {length : Nat} {s : Splice} {rest : List Splice}
    (h : Ready length (s :: rest)) : Ready length rest where
  ascends := (List.pairwise_cons.mp h.ascends).2
  sound := (List.forall_mem_cons.mp h.sound).2
  busy := (List.forall_mem_cons.mp h.busy).2

/-- The first splice may take over the text of the second, since it keeps its extent. -/
theorem Ready.absorb {length : Nat} {held s : Splice} {rest : List Splice}
    (h : Ready length (held :: s :: rest)) :
    Ready length (⟨held.extent, held.text ++ s.text⟩ :: rest) where
  ascends := by
    have hheld := (List.forall_mem_cons.mp (List.pairwise_cons.mp h.ascends).1).2
    exact List.pairwise_cons.mpr ⟨hheld, h.tail.tail.ascends⟩
  sound := List.forall_mem_cons.mpr ⟨h.sound held List.mem_cons_self, h.tail.tail.sound⟩
  busy := by
    have hbusy := isIdle_append (h.busy held List.mem_cons_self) s.text
    exact List.forall_mem_cons.mpr ⟨hbusy, h.tail.tail.busy⟩

/-- Joining makes one insertion of the first two splices if both are insertions at one offset, or
leaves them apart. -/
theorem joinAfter_cases {held s : Splice} {rest joined : List Splice}
    (hs : s.extent.start ≤ s.extent.stop) (h : joinAfter held (s :: rest) = .ok joined) :
    (held.extent = s.extent ∧ s.extent.start = s.extent.stop ∧
      joinAfter ⟨held.extent, held.text ++ s.text⟩ rest = .ok joined) ∨
    ∃ behind, joinAfter s rest = .ok behind ∧ joined = held :: behind ∧
      held.extent.stop ≤ s.extent.start ∧ held.extent ≠ s.extent := by
  rw [joinAfter] at h
  split at h
  case isTrue => simp at h
  case isFalse hclear =>
    split at h
    case isTrue hone =>
      simp only [isInsertion, Extent.isEmpty, Bool.and_eq_true, beq_iff_eq] at hone
      exact Or.inl ⟨Extent.eq_of_start_of_stop (by omega) (by omega), hone.1.2, h⟩
    case isFalse hapart =>
      obtain ⟨behind, hbehind, rfl⟩ := exists_of_map_eq_ok h
      refine Or.inr ⟨behind, hbehind, rfl, by omega, fun heq => hapart ?_⟩
      -- Splices on one extent that do not overlap are insertions at one offset.
      have hpoint : s.extent.start = s.extent.stop := by
        rw [heq] at hclear
        omega
      simp [isInsertion, Extent.isEmpty, heq, hpoint]

/-- Joining keeps splices in line, none before the one in front. -/
theorem joinAfter_inLine {length : Nat} {held : Splice} {rest joined : List Splice}
    (ready : Ready length (held :: rest)) (h : joinAfter held rest = .ok joined) :
    InLine held.extent.start length joined ∧ ∀ s ∈ joined, held.extent ≤ s.extent := by
  obtain ⟨hstop, hfits⟩ := ready.sound held List.mem_cons_self
  induction rest generalizing held joined with
  | nil =>
    obtain rfl : [held] = joined := Except.ok.inj h
    have hbusy := ready.busy held List.mem_cons_self
    refine ⟨.cons (Nat.le_refl _) hstop hfits hbusy (inLine_nil _ _) nofun, ?_⟩
    exact List.forall_mem_singleton.mpr (Extent.le_refl _)
  | cons s rest ih =>
    obtain ⟨hsstop, hsfits⟩ := ready.tail.sound s List.mem_cons_self
    rcases joinAfter_cases hsstop h with ⟨-, -, hmerged⟩ | ⟨behind, hbehind, rfl, hclear, hne⟩
    · have hline := ih ready.absorb hmerged hstop hfits
      exact hline
    · obtain ⟨hline, hlater⟩ := ih ready.tail hbehind hsstop hsfits
      have hfront : held.extent ≤ s.extent :=
        (List.pairwise_cons.mp ready.ascends).1 s List.mem_cons_self
      have hahead : InLine held.extent.stop length behind :=
        { hline with ahead := fun next hnext => Nat.le_trans hclear (hline.ahead next hnext) }
      have hfresh : ∀ next ∈ behind, held.extent ≠ next.extent := by
        intro next hnext heq
        have hnextle := hlater next hnext
        rw [← heq] at hnextle
        exact hne (Extent.le_antisymm hfront hnextle)
      have hbusy := ready.busy held List.mem_cons_self
      refine ⟨.cons (Nat.le_refl _) hstop hfits hbusy hahead hfresh, ?_⟩
      exact List.forall_mem_cons.mpr
        ⟨Extent.le_refl _, fun next hnext => Extent.le_trans hfront (hlater next hnext)⟩

/-- Joining puts splices in line. -/
theorem join_inLine {length : Nat} {splices joined : List Splice} (ready : Ready length splices)
    (h : join splices = .ok joined) : InLine 0 length joined := by
  cases splices with
  | nil =>
    obtain rfl : [] = joined := Except.ok.inj h
    exact inLine_nil _ _
  | cons s rest =>
    have hline := (joinAfter_inLine ready h).1
    exact { hline with ahead := fun _ _ => Nat.zero_le _ }

/-- Making splices in line changes a length by what they put in and take away. -/
theorem InLine.foldl_length {old length : Nat} {splices : List Splice}
    (h : InLine old length splices) (n : Nat) (hn : removed splices ≤ n) :
    splices.foldl (fun n s => n + s.text.length - (s.extent.stop - s.extent.start)) n
      + removed splices = n + inserted splices := by
  induction splices generalizing old n with
  | nil => rfl
  | cons s rest ih =>
    simp only [removed, inserted, removedLength] at hn ⊢
    have hrest := ih h.tail (n + s.text.length - (s.extent.stop - s.extent.start)) (by omega)
    rw [List.foldl_cons]
    omega

end Splice

namespace Pass

/-- A pass as it should be: its splices stand in line, and there are some. -/
structure WellFormed (p : Pass) : Prop where
  inLine : Splice.InLine 0 p.lengthBefore p.splices
  nonempty : p.splices ≠ []

/-- The length after a pass, without subtraction. -/
theorem lengthAfter_add_removed {p : Pass} (h : Splice.InLine 0 p.lengthBefore p.splices) :
    p.lengthAfter + Splice.removed p.splices = p.lengthBefore + Splice.inserted p.splices := by
  have hfits := h.old_add_removed_le (Nat.zero_le _)
  exact h.foldl_length p.lengthBefore (by omega)

/-- A pass can be made exactly if every splice fits the text and those that do something can be
joined in order; it then holds the joined ones. -/
theorem ofSplices_eq_ok_iff {length : Nat} {asked : List Splice} {p : Pass} :
    ofSplices length asked = .ok p ↔
      (∀ s ∈ asked, s.extent.start ≤ s.extent.stop ∧ s.extent.stop ≤ length) ∧
        Splice.join (Splice.inOrder asked) = .ok p.splices ∧ p.lengthBefore = length := by
  have hfits : asked.findSome? (Splice.error? length) = none ↔
      ∀ s ∈ asked, s.extent.start ≤ s.extent.stop ∧ s.extent.stop ≤ length := by
    simp only [List.findSome?_eq_none_iff, Splice.error?_eq_none_iff]
  unfold ofSplices
  split
  case h_1 error herror =>
    rw [← hfits, herror]
    simp
  case h_2 hnone =>
    rw [and_iff_right (hfits.mp hnone)]
    constructor
    · intro made
      obtain ⟨joined, hjoin, rfl⟩ := exists_of_map_eq_ok made
      exact ⟨hjoin, rfl⟩
    · rintro ⟨hjoin, rfl⟩
      change (Splice.join (Splice.inOrder asked)).map _ = _
      rw [hjoin]
      rfl

/-- A pass that was made holds the splices that were asked for and do something, joined. -/
theorem exists_join_of_ofSplices {length : Nat} {asked : List Splice} {p : Pass}
    (h : ofSplices length asked = .ok p) : p.lengthBefore = length ∧
      Splice.Ready length (Splice.inOrder asked) ∧
      Splice.join (Splice.inOrder asked) = .ok p.splices := by
  obtain ⟨hfits, hjoin, hlength⟩ := ofSplices_eq_ok_iff.mp h
  exact ⟨hlength, Splice.ready_inOrder hfits, hjoin⟩

/-- The splices of a pass that was made stand in line, in a text of the announced length. -/
theorem inLine_of_ofSplices {length : Nat} {asked : List Splice} {p : Pass}
    (h : ofSplices length asked = .ok p) :
    p.lengthBefore = length ∧ Splice.InLine 0 length p.splices := by
  obtain ⟨hlength, ready, hjoin⟩ := exists_join_of_ofSplices h
  exact ⟨hlength, Splice.join_inLine ready hjoin⟩

/-- Passes that lead from texts of one length to texts of another, each made for the length that
the pass before it leaves. -/
inductive Chain : Nat → List Pass → Nat → Prop where
  | nil (length : Nat) : Chain length [] length
  | cons {p : Pass} {rest : List Pass} {final : Nat} (first : p.WellFormed)
      (behind : Chain p.lengthAfter rest final) : Chain p.lengthBefore (p :: rest) final

/-- Chains that meet are one chain. -/
theorem Chain.append {length middle final : Nat} {passes more : List Pass}
    (h : Chain length passes middle) (hmore : Chain middle more final) :
    Chain length (passes ++ more) final := by
  induction h with
  | nil => exact hmore
  | cons first _ ih => exact .cons first (ih hmore)

end Pass

namespace Edit

/-- An edit as it should be: its passes lead from its first to its last length. -/
def WellFormed (e : Edit) : Prop := Pass.Chain e.lengthBefore e.passes e.lengthAfter

/-- The edits that can be made: all that have no passes, come from splices or from a delta, or
chain edits that can be made. -/
inductive Built : Edit → Prop where
  | identity (length : Nat) : Built (identity length)
  | ofSplices {length : Nat} {asked : List Splice} {e : Edit}
      (made : ofSplices length asked = .ok e) : Built e
  | ofSplice {length : Nat} {asked : Splice} {e : Edit}
      (made : ofSplice length asked = .ok e) : Built e
  | andThen {e next whole : Edit} (first : Built e) (second : Built next)
      (made : e.andThen next = .ok whole) : Built whole
  | ofDelta {d : Delta} {e : Edit} (made : d.toEdit = .ok e) : Built e

/-- An edit without passes is well formed. -/
theorem wellFormed_identity (length : Nat) : (identity length).WellFormed := .nil length

/-- An edit is made of splices exactly if a pass is, and has that pass if it does anything. -/
theorem ofSplices_eq_ok_iff {length : Nat} {asked : List Splice} {e : Edit} :
    ofSplices length asked = .ok e ↔ ∃ p, Pass.ofSplices length asked = .ok p ∧
      ⟨length, p.lengthAfter, if p.splices.isEmpty then [] else [p]⟩ = e := by
  constructor
  · exact exists_of_map_eq_ok
  · rintro ⟨p, hpass, rfl⟩
    rw [ofSplices, hpass]
    rfl

/-- An edit that comes from splices is well formed and for the announced length. -/
theorem wellFormed_of_ofSplices {length : Nat} {asked : List Splice} {e : Edit}
    (h : ofSplices length asked = .ok e) : e.lengthBefore = length ∧ e.WellFormed := by
  obtain ⟨p, hpass, rfl⟩ := ofSplices_eq_ok_iff.mp h
  obtain ⟨rfl, hline⟩ := Pass.inLine_of_ofSplices hpass
  refine ⟨rfl, ?_⟩
  unfold WellFormed
  by_cases hnone : p.splices = []
  · have hlength : p.lengthAfter = p.lengthBefore := by simp [Pass.lengthAfter, hnone]
    simpa [hnone, hlength] using Pass.Chain.nil p.lengthBefore
  · simpa [hnone] using Pass.Chain.cons ⟨hline, hnone⟩ (.nil p.lengthAfter)

/-- Edits that meet are chained by chaining their passes. -/
theorem andThen_eq_ok_iff {e next whole : Edit} :
    e.andThen next = .ok whole ↔ e.lengthAfter = next.lengthBefore ∧
      whole = ⟨e.lengthBefore, next.lengthAfter, e.passes ++ next.passes⟩ := by
  unfold andThen
  split
  case isTrue hmeet => rw [Except.ok.injEq, and_iff_right hmeet, eq_comm]
  case isFalse hmeet => simp [hmeet]

/-- Chaining well-formed edits gives a well-formed edit. -/
theorem WellFormed.andThen {e next whole : Edit} (he : e.WellFormed) (hnext : next.WellFormed)
    (h : e.andThen next = .ok whole) : whole.WellFormed := by
  obtain ⟨hmeet, rfl⟩ := andThen_eq_ok_iff.mp h
  unfold WellFormed at he
  rw [hmeet] at he
  exact he.append hnext

/-- A delta that is an edit is what appending its steps to nothing gives. -/
theorem appendSteps_of_toEdit {d : Delta} {e : Edit} (h : d.toEdit = .ok e) :
    Delta.appendSteps (identity d.before) d.steps = .ok e := by
  unfold Delta.toEdit at h
  split at h
  case h_1 => simp at h
  case h_2 whole hsteps =>
    split at h
    case isTrue =>
      obtain rfl := Except.ok.inj h
      exact hsteps
    case isFalse => simp at h

section Induction

variable {motive : Edit → Prop} {e whole : Edit}
  (splices : ∀ {length asked e}, Edit.ofSplices length asked = .ok e → motive e)
  (chained : ∀ {e next : Edit}, e.lengthAfter = next.lengthBefore → motive e → motive next →
    motive ⟨e.lengthBefore, next.lengthAfter, e.passes ++ next.passes⟩)

include splices chained

/-- What edits made of splices have and chaining keeps, appending the steps of a delta keeps. -/
theorem appendSteps_induct {steps : List Delta.Step} (he : motive e)
    (h : Delta.appendSteps e steps = .ok whole) : motive whole := by
  induction steps generalizing e with
  | nil =>
    obtain rfl := Except.ok.inj h
    exact he
  | cons s rest ih =>
    rw [Delta.appendSteps] at h
    split at h
    case h_1 => simp at h
    case h_2 next hnext =>
      have hmeet := (wellFormed_of_ofSplices hnext).1
      exact ih (chained hmeet.symm he (splices hnext)) h

/-- What edits without passes and edits made of splices have and chaining keeps, every edit that can
be made has. -/
theorem Built.induct (without : ∀ length, motive (.identity length)) (h : e.Built) : motive e := by
  induction h with
  | identity length => exact without length
  | ofSplices made => exact splices made
  | ofSplice made => exact splices made
  | andThen _ _ made first second =>
    obtain ⟨hmeet, rfl⟩ := andThen_eq_ok_iff.mp made
    exact chained hmeet first second
  | ofDelta made =>
    exact appendSteps_induct splices chained (without _) (appendSteps_of_toEdit made)

end Induction

/-- Every edit that can be made is well formed. -/
theorem Built.wellFormed {e : Edit} (h : e.Built) : e.WellFormed := by
  refine h.induct (fun made => (wellFormed_of_ofSplices made).2) (fun hmeet he hnext => ?_)
    wellFormed_identity
  exact he.andThen hnext (andThen_eq_ok_iff.mpr ⟨hmeet, rfl⟩)

/-- What holds of every pass that is made from splices holds of the passes of their edit. -/
theorem forall_passes_of_ofSplices {holds : Pass → Prop}
    (made : ∀ {length asked p}, Pass.ofSplices length asked = .ok p → holds p) {length : Nat}
    {asked : List Splice} {e : Edit} (h : ofSplices length asked = .ok e) :
    ∀ p ∈ e.passes, holds p := by
  obtain ⟨p, hpass, rfl⟩ := ofSplices_eq_ok_iff.mp h
  dsimp only
  split
  case isTrue => exact List.forall_mem_nil _
  case isFalse => exact List.forall_mem_singleton.mpr (made hpass)

/-- What holds of every pass that is made from splices holds of all passes of the edits that can be
made. -/
theorem Built.forall_passes {holds : Pass → Prop}
    (made : ∀ {length asked p}, Pass.ofSplices length asked = .ok p → holds p) {e : Edit}
    (h : e.Built) : ∀ p ∈ e.passes, holds p :=
  h.induct (forall_passes_of_ofSplices made)
    (fun _ first second => List.forall_mem_append.mpr ⟨first, second⟩)
    (fun _ => List.forall_mem_nil _)

end Edit

end Marginalia
