/-!
# Extents of text

An extent is the stretch of text between two character offsets. Extents are ordered by their
start and then by their stop, and lists that carry an extent are sorted by it. The sort keeps
the given order of elements with equal extents, so "the first of two equal extents" always means
the one that was given first. Nothing here says that an extent lies inside a text, or that it
stops after it starts.
-/

namespace Marginalia

/-- The greatest offset that there is: offsets are words of 64 bits. -/
def greatestOffset : Nat := Nat.pow 2 64 - 1

/-- The characters from offset `start` up to, but not including, offset `stop`. -/
structure Extent where
  start : Nat
  stop : Nat
  deriving DecidableEq, Repr, Inhabited

namespace Extent

/-- The extent of no width at `offset`. -/
def point (offset : Nat) : Extent := ⟨offset, offset⟩

/-- An extent without width. -/
def isEmpty (e : Extent) : Bool := e.start == e.stop

instance : LE Extent where
  le a b := a.start < b.start ∨ (a.start = b.start ∧ a.stop ≤ b.stop)

instance : LT Extent where
  lt a b := a.start < b.start ∨ (a.start = b.start ∧ a.stop < b.stop)

theorem le_def {a b : Extent} :
    a ≤ b ↔ a.start < b.start ∨ (a.start = b.start ∧ a.stop ≤ b.stop) := Iff.rfl

theorem lt_def {a b : Extent} :
    a < b ↔ a.start < b.start ∨ (a.start = b.start ∧ a.stop < b.stop) := Iff.rfl

instance (a b : Extent) : Decidable (a ≤ b) :=
  inferInstanceAs (Decidable (a.start < b.start ∨ (a.start = b.start ∧ a.stop ≤ b.stop)))

instance (a b : Extent) : Decidable (a < b) :=
  inferInstanceAs (Decidable (a.start < b.start ∨ (a.start = b.start ∧ a.stop < b.stop)))

theorem le_refl (a : Extent) : a ≤ a := Or.inr ⟨rfl, Nat.le_refl _⟩

theorem le_trans {a b c : Extent} (hab : a ≤ b) (hbc : b ≤ c) : a ≤ c := by
  simp only [le_def] at *
  omega

/-- Extents that start and stop alike are equal. -/
theorem eq_of_start_of_stop {a b : Extent} (hstart : a.start = b.start)
    (hstop : a.stop = b.stop) : a = b := by
  cases a
  cases b
  simp_all

/-- Extents neither of which comes before the other are equal. -/
theorem le_antisymm {a b : Extent} (h : a ≤ b) (h' : b ≤ a) : a = b := by
  rw [le_def] at h h'
  exact eq_of_start_of_stop (by omega) (by omega)

theorem le_total (a b : Extent) : a ≤ b ∨ b ≤ a := by
  simp only [le_def]
  omega

theorem le_of_not_le {a b : Extent} (h : ¬ a ≤ b) : b ≤ a := (le_total a b).resolve_left h

theorem not_lt {a b : Extent} : ¬ a < b ↔ b ≤ a := by
  simp only [le_def, lt_def]
  omega

end Extent

variable {α : Type}

/-- Put `x` in front of the first element whose extent is not smaller than its own. -/
def insertByExtent (extent : α → Extent) (x : α) : List α → List α
  | [] => [x]
  | y :: rest =>
    if extent x ≤ extent y then x :: y :: rest else y :: insertByExtent extent x rest

/-- Sort by extent. Elements with equal extents keep their order. -/
def sortByExtent (extent : α → Extent) (xs : List α) : List α :=
  xs.foldr (insertByExtent extent) []

/-- Insertion adds the element and nothing else. -/
theorem insertByExtent_perm (extent : α → Extent) (x : α) (xs : List α) :
    (insertByExtent extent x xs).Perm (x :: xs) := by
  induction xs with
  | nil => exact List.Perm.refl _
  | cons y rest ih =>
    simp only [insertByExtent]
    split
    · exact List.Perm.refl _
    · exact (ih.cons y).trans (List.Perm.swap x y rest)

/-- Sorting neither adds nor loses an element. -/
theorem sortByExtent_perm (extent : α → Extent) (xs : List α) :
    (sortByExtent extent xs).Perm xs := by
  induction xs with
  | nil => exact List.Perm.refl _
  | cons x rest ih => exact (insertByExtent_perm extent x _).trans (ih.cons x)

/-- Insertion keeps a sorted list sorted. -/
theorem insertByExtent_pairwise (extent : α → Extent) (x : α) {xs : List α}
    (h : xs.Pairwise fun a b => extent a ≤ extent b) :
    (insertByExtent extent x xs).Pairwise fun a b => extent a ≤ extent b := by
  induction xs with
  | nil => simp [insertByExtent]
  | cons y rest ih =>
    obtain ⟨hy, hrest⟩ := List.pairwise_cons.mp h
    simp only [insertByExtent]
    split
    case isTrue hxy =>
      refine List.pairwise_cons.mpr ⟨fun z hz => ?_, h⟩
      rcases List.mem_cons.mp hz with rfl | hz
      · exact hxy
      · exact Extent.le_trans hxy (hy z hz)
    case isFalse hxy =>
      refine List.pairwise_cons.mpr ⟨fun z hz => ?_, ih hrest⟩
      rcases List.mem_cons.mp ((insertByExtent_perm extent x rest).mem_iff.mp hz) with rfl | hz
      · exact Extent.le_of_not_le hxy
      · exact hy z hz

/-- The result of sorting ascends. -/
theorem sortByExtent_pairwise (extent : α → Extent) (xs : List α) :
    (sortByExtent extent xs).Pairwise fun a b => extent a ≤ extent b := by
  induction xs with
  | nil => exact List.Pairwise.nil
  | cons x rest ih => exact insertByExtent_pairwise extent x ih

end Marginalia
