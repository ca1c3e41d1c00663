import Marginalia.Proofs.Store.Soundness
import Marginalia.Proofs.Text.Tiling
import Marginalia.View.Hover

/-!
# What is under the pointer

A pointer at a position is over the character on its side of it. Under it are the marks that have
this character, whichever others they are nested in, and the points at the position. A tooltip opens
for all of them before a filter is asked, so that its extent is theirs, and it goes on past the line
of its anchor exactly if one of them does.
-/

namespace Marginalia.Hover

/-- The character that a pointer at a position is over. In front of the start of the text there is
none. -/
def pointedAt? : Nat → Side → Option Nat
  | pos, .after => some pos
  | 0, .before => none
  | pos + 1, .before => some pos

/-- The annotation is under the pointer: a mark by the character that the pointer is over, a point
by its place. -/
def Under (pos : Nat) (side : Side) (a : Annotation) : Prop :=
  (a.kind = .mark ∧ ∃ i ∈ pointedAt? pos side, a.extent.start ≤ i ∧ i < a.extent.stop) ∨
    (a.kind = .point ∧ a.extent.start = pos)

instance (pos : Nat) (side : Side) (a : Annotation) : Decidable (Under pos side a) :=
  inferInstanceAs (Decidable (_ ∨ _))

variable {s : Store} {doc : Document} {pos : Nat} {side : Side}

/-- What the pointer covers is what is under it, if marks have characters and points none. -/
theorem covers_iff_under {a : Annotation} (wide : a.kind = .mark → a.extent.start < a.extent.stop)
    (narrow : a.kind = .point → a.extent.start = a.extent.stop) :
    covers a.extent pos side = true ↔ Under pos side a := by
  cases hkind : a.kind with
  | mark =>
    have hwide := wide hkind
    have hne : a.extent.start ≠ a.extent.stop := Nat.ne_of_lt hwide
    cases side with
    | after =>
      simp [covers, Under, pointedAt?, hkind, Extent.isEmpty, hne]
      omega
    | before =>
      cases pos with
      | zero =>
        simp [covers, Under, pointedAt?, hkind, Extent.isEmpty, hne]
      | succ i =>
        simp [covers, Under, pointedAt?, hkind, Extent.isEmpty, hne]
        omega
  | point =>
    have hnarrow := narrow hkind
    simp [covers, Under, hkind, Extent.isEmpty, ← hnarrow]
    omega

section Extremes

variable {α : Type}

/-- The least of a number and some others. -/
theorem foldl_min_eq (f : α → Nat) (xs : List α) (n : Nat) :
    xs.foldl (fun n x => min n (f x)) n = min n ((xs.map f).min?.getD n) := by
  rw [← List.foldl_min, List.foldl_map]

/-- The greatest of a number and some others. -/
theorem foldl_max_eq (f : α → Nat) (xs : List α) (n : Nat) :
    xs.foldl (fun n x => max n (f x)) n = max n ((xs.map f).max?.getD n) := by
  rw [← List.foldl_max, List.foldl_map]

/-- The least of some numbers, counted from one that is not below any of them. -/
theorem foldl_min_eq_getD {f : α → Nat} {xs : List α} {n : Nat} (bounded : ∀ x ∈ xs, f x ≤ n) :
    xs.foldl (fun n x => min n (f x)) n = (xs.map f).min?.getD n := by
  rw [foldl_min_eq, Nat.min_eq_right]
  cases xs with
  | nil => exact Nat.le_refl n
  | cons x rest =>
    have hx : x ∈ x :: rest := List.mem_cons_self
    exact Nat.le_trans (List.min?_getD_le_of_mem (List.mem_map_of_mem hx)) (bounded x hx)

end Extremes

/-- A tooltip lists what the filter leaves of the reports under the pointer, in the order of their
extents and one for each annotation, and there is no tooltip exactly if the filter leaves nothing.
Its anchor and its stop are the least start and the greatest stop of all that is under the pointer,
whether it is listed or not, and it is shown above exactly if its stop is past the line that its
anchor is in. If a filter makes up reports where nothing is under the pointer, the least start is
the greatest offset that there is. -/
theorem lists_what_is_under (valid : s.Valid doc.length) (wide : s.HasWideMarks)
    (bounded : doc.length ≤ greatestOffset) (pos : Nat) (side : Side) (filter : Option Filter) :
    let under := s.annotations.filter (Under pos side ·)
    let listed := Filter.applyTo filter (under.map (·.report))
    under.Pairwise (fun a b => a.extent ≤ b.extent) ∧
      (at? s doc pos side filter = none ↔ listed = []) ∧
      ∀ tip, at? s doc pos side filter = some tip → tip.reports = listed ∧
        tip.anchor = (under.map (·.extent.start)).min?.getD greatestOffset ∧
        tip.stop = (under.map (·.extent.stop)).max?.getD 0 ∧
        ∃ k, Text.InLine doc.text k tip.anchor ∧
          (tip.above = true ↔ (doc.line k).stop < tip.stop) := by
  intro under listed
  have hfound : s.annotations.filter (fun a => covers a.extent pos side) = under := by
    refine List.filter_congr fun a ha => ?_
    rw [Bool.eq_iff_iff, decide_eq_true_iff]
    exact covers_iff_under (wide a ha) (valid.narrow a ha)
  have hbounded : ∀ a ∈ under, a.extent.start ≤ greatestOffset := by
    intro a ha
    obtain ⟨hordered, hinside⟩ := valid.inside a (List.mem_filter.mp ha).1
    exact Nat.le_trans hordered (Nat.le_trans hinside bounded)
  refine ⟨valid.ascends.filter _, ?_⟩
  simp only [at?, hfound, foldl_min_eq_getD hbounded, foldl_max_eq, Nat.zero_max]
  have hlisted : Filter.applyTo filter (under.map (·.report)) = listed := rfl
  rw [hlisted]
  clear_value listed
  cases listed with
  | nil => exact ⟨iff_of_true rfl rfl, nofun⟩
  | cons r rest =>
    refine ⟨iff_of_false nofun nofun, fun tip htip => ?_⟩
    obtain rfl := Option.some.inj htip
    obtain ⟨k, hline, hin⟩ := Text.exists_lineAt_eq_line doc.text
      ((under.map (·.extent.start)).min?.getD greatestOffset)
    refine ⟨rfl, rfl, rfl, k, hin, ?_⟩
    rw [decide_eq_true_iff, Document.lineAt, hline]
    rfl

/-- In front of the position is the first character of the first line. A mark over both lines and a
point have the pointer over them, and a mark that begins at the position has not. The filter leaves
the point alone, but the tooltip spans the mark too. -/
theorem lists_what_is_under_of_nested :
    let doc : Document := .ofText "main" ['a', 'b', '\r', '\n', 'c']
    let wide : Report := ⟨.error ⟨"main", ⟨0, 5⟩⟩ "wide", .host 0⟩
    let hint : Report := ⟨⟨⟨"main", ⟨1, 1⟩⟩, .hint, "hint", none, [], none⟩, .host 1⟩
    let next : Report := ⟨.error ⟨"main", ⟨1, 2⟩⟩ "next", .host 2⟩
    let hints : Filter := fun reports => reports.filter (·.severity = .hint)
    doc.length ≤ greatestOffset ∧
      ∃ s, Store.empty.update (.ofReports [wide, hint, next]) doc = .ok s ∧ s.Valid doc.length ∧
        s.HasWideMarks ∧
        ∃ tip, at? s doc 1 .before (some hints) = some tip ∧ tip.reports = [hint] ∧
          tip.anchor = 0 ∧ tip.stop = 5 ∧
          ∃ k, Text.InLine doc.text k 0 ∧ (tip.above = true ↔ (doc.line k).stop < 5) := by
  intro doc wide hint next hints
  obtain ⟨s, hupdate, hplaced⟩ :
      ∃ s, Store.empty.update (.ofReports [wide, hint, next]) doc = .ok s ∧ s.annotations =
        [⟨⟨0, 5⟩, .mark, wide⟩, ⟨.point 1, .point, hint⟩, ⟨⟨1, 2⟩, .mark, next⟩] := ⟨_, rfl, rfl⟩
  have valid := Store.valid_of_update hupdate
  have hwide := Store.hasWideMarks_empty.update hupdate
  have bounded : doc.length ≤ greatestOffset := by decide
  obtain ⟨-, hnone, hshows⟩ := lists_what_is_under valid hwide bounded 1 .before (some hints)
  rw [hplaced] at hnone hshows
  obtain ⟨tip, htip⟩ := Option.ne_none_iff_exists'.mp (mt hnone.mp (by decide))
  obtain ⟨hreports, hanchor, hstop, hline⟩ := hshows tip htip
  have hanchor : tip.anchor = 0 := hanchor
  have hstop : tip.stop = 5 := hstop
  rw [hanchor, hstop] at hline
  exact ⟨bounded, s, hupdate, valid, hwide, tip, htip, hreports, hanchor, hstop, hline⟩

end Marginalia.Hover
