import Marginalia.Fault
import Marginalia.Store.Annotation

/-!
# The report store

The store holds the annotations of one document in order of their extents, the selected report
with its place, and whether the panel is open. It can be checked against the length of the
document: annotations ascend, lie inside the text, points have no width, and the selected report
is annotated.
-/

namespace Marginalia

/-- The report that the panel and the navigation regard as current. -/
structure Selection where
  extent : Extent
  report : Report
  deriving DecidableEq, Repr

/-- The current reports of one document. -/
structure Store where
  annotations : List Annotation
  selected : Option Selection
  panelOpen : Bool
  version : Nat
  deriving DecidableEq, Repr

namespace Store

/-- No reports, and the panel is closed. -/
def empty : Store := ⟨[], none, false, 0⟩

/-- The reports in order of their annotations. -/
def reports (s : Store) : List Report := s.annotations.map (·.report)

/-- The number of annotations. -/
def size (s : Store) : Nat := s.annotations.length

/-- Select the report of an annotation. -/
def selectionOf (a : Annotation) : Selection := ⟨a.extent, a.report⟩

/-- The first annotation that starts at or after `offset`, among those of `report` if one is
given. -/
def firstFrom (annotations : List Annotation) (report : Option Report) (offset : Nat) :
    Option Selection :=
  (annotations.find? fun a =>
    offset ≤ a.extent.start && (match report with | none => true | some r => a.report == r)).map
      selectionOf

/-- Look a report, or any report, up in the store. -/
def find? (s : Store) (report : Option Report) (offset : Nat) : Option Selection :=
  firstFrom s.annotations report offset

/-- Whether no annotation comes before its left neighbour. -/
def ascending : List Annotation → Bool
  | a :: b :: rest => a.extent ≤ b.extent && ascending (b :: rest)
  | _ => true

/-- What is wrong with an annotation of a text of `length` characters: it does not lie inside, or
it is a point with width. -/
def placeFault? (length : Nat) (a : Annotation) : Option Fault :=
  if a.extent.stop < a.extent.start ∨ length < a.extent.stop then
    some (.outsideText a.extent length)
  else if a.kind = .point ∧ a.extent.start ≠ a.extent.stop then some .pointWithWidth
  else none

/-- What is wrong with the selection: its report has no annotation. -/
def selectionFault? (s : Store) : Option Fault :=
  match s.selected with
  | none => none
  | some selection => if selection.report ∈ s.reports then none else some .selectionMissing

/-- The first thing that is wrong with a store for a text of `length` characters: the order comes
before the annotations one by one, and these before the selection. -/
def fault? (s : Store) (length : Nat) : Option Fault :=
  if !ascending s.annotations then some .outOfOrder
  else (s.annotations.findSome? (placeFault? length)).or s.selectionFault?

/-- What a store for a text of `length` characters has to be: its annotations ascend and lie
inside the text, points have no width, and the selected report is annotated. -/
structure Valid (s : Store) (length : Nat) : Prop where
  ascends : s.annotations.Pairwise fun a b => a.extent ≤ b.extent
  inside : ∀ a ∈ s.annotations, a.extent.start ≤ a.extent.stop ∧ a.extent.stop ≤ length
  narrow : ∀ a ∈ s.annotations, a.kind = .point → a.extent.start = a.extent.stop
  held : ∀ selection, s.selected = some selection → selection.report ∈ s.reports

/-- It is enough to compare neighbours. -/
theorem ascending_iff_pairwise {annotations : List Annotation} :
    ascending annotations ↔ annotations.Pairwise fun a b => a.extent ≤ b.extent := by
  induction annotations with
  | nil => simp [ascending]
  | cons a rest ih =>
    cases rest with
    | nil => simp [ascending]
    | cons b rest =>
      rw [ascending, Bool.and_eq_true, decide_eq_true_iff, ih, List.pairwise_cons (a := a)]
      constructor
      · intro h
        refine ⟨fun c hc => ?_, h.2⟩
        rcases List.mem_cons.mp hc with rfl | hc
        · exact h.1
        · exact Extent.le_trans h.1 ((List.pairwise_cons.mp h.2).1 c hc)
      · intro h
        exact ⟨h.1 b List.mem_cons_self, h.2⟩

/-- Nothing is wrong with an annotation exactly if it lies inside and, as a point, has no width. -/
theorem placeFault?_eq_none_iff {length : Nat} {a : Annotation} :
    placeFault? length a = none ↔
      (a.extent.start ≤ a.extent.stop ∧ a.extent.stop ≤ length)
        ∧ (a.kind = .point → a.extent.start = a.extent.stop) := by
  unfold placeFault?
  split
  case isTrue h => simp; omega
  case isFalse h =>
    split
    case isTrue hp => simp [hp.1, hp.2]
    case isFalse hp =>
      simp only [true_iff]
      refine ⟨by omega, fun hk => ?_⟩
      exact Decidable.not_not.mp fun hne => hp ⟨hk, hne⟩

/-- Nothing is wrong with the selection exactly if its report is annotated. -/
theorem selectionFault?_eq_none_iff {s : Store} :
    s.selectionFault? = none ↔
      ∀ selection, s.selected = some selection → selection.report ∈ s.reports := by
  unfold selectionFault?
  split
  case h_1 h => simp [h]
  case h_2 selection h => simp [h]

/-- Nothing is wrong with a store exactly if it is valid. -/
theorem fault?_eq_none_iff {s : Store} {length : Nat} :
    s.fault? length = none ↔ s.Valid length := by
  unfold fault?
  split
  case isTrue h =>
    simp only [Bool.not_eq_true', ← Bool.not_eq_true, ascending_iff_pairwise] at h
    exact ⟨nofun, fun valid => absurd valid.ascends h⟩
  case isFalse h =>
    simp only [Bool.not_eq_true', Bool.not_eq_false, ascending_iff_pairwise] at h
    rw [Option.or_eq_none_iff, List.findSome?_eq_none_iff, selectionFault?_eq_none_iff]
    simp only [placeFault?_eq_none_iff]
    constructor
    · intro sound
      exact ⟨h, fun a ha => (sound.1 a ha).1, fun a ha => (sound.1 a ha).2, sound.2⟩
    · intro valid
      exact ⟨fun a ha => ⟨valid.inside a ha, valid.narrow a ha⟩, valid.held⟩

/-- The empty store is valid for every text. -/
theorem valid_empty (length : Nat) : empty.Valid length :=
  ⟨List.Pairwise.nil, nofun, nofun, nofun⟩

end Store

end Marginalia
