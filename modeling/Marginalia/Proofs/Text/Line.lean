import Marginalia.Text.Line

/-!
# Lines in order

The lines of a text follow one another: each stops where its break begins and the next starts
behind the break, the first starts with the text, and none reaches past the end of it. So the
start of a line tells which line it is. The line that contains an offset is the last one that
starts at or before it, hence a later offset is never in an earlier line.
-/

namespace Marginalia.Text

variable {number start offset : Nat} {t : Text}

/-- The lines of the rest of a text begin with the line that is under way. -/
theorem exists_linesFrom_eq_cons (number start offset : Nat) (t : Text) :
    ∃ first rest, linesFrom number start offset t = first :: rest ∧ first.start = start := by
  fun_induction linesFrom number start offset t with
  | case1 number start offset => exact ⟨_, _, rfl, rfl⟩
  | case2 number start offset rest ih => exact ⟨_, _, rfl, rfl⟩
  | case3 number start offset c rest _ hbreak ih => exact ⟨_, _, rfl, rfl⟩
  | case4 number start offset c rest _ hchar ih => exact ih

/-- The lines of the rest of a text lie between the start of the line that is under way and the
end of the text. -/
theorem bounds_of_mem_linesFrom {line : Line} (h : start ≤ offset)
    (hline : line ∈ linesFrom number start offset t) :
    start ≤ line.start ∧ line.start ≤ line.stop ∧ line.stop ≤ offset + t.length := by
  fun_induction linesFrom number start offset t with
  | case1 number start offset =>
    obtain rfl := List.mem_singleton.mp hline
    exact ⟨Nat.le_refl _, h, Nat.le_add_right _ _⟩
  | case2 number start offset rest ih =>
    simp only [List.length_cons]
    rcases List.mem_cons.mp hline with rfl | hline
    · exact ⟨Nat.le_refl _, h, Nat.le_add_right _ _⟩
    · have hrest := ih (Nat.le_refl _) hline
      omega
  | case3 number start offset c rest _ hbreak ih =>
    simp only [List.length_cons]
    rcases List.mem_cons.mp hline with rfl | hline
    · exact ⟨Nat.le_refl _, h, Nat.le_add_right _ _⟩
    · have hrest := ih (Nat.le_refl _) hline
      omega
  | case4 number start offset c rest _ hchar ih =>
    have hrest := ih (Nat.le_succ_of_le h) hline
    rw [List.length_cons]
    omega

/-- Each line of the rest of a text stops before the next one starts. -/
theorem linesFrom_pairwise (h : start ≤ offset) :
    (linesFrom number start offset t).Pairwise fun a b => a.stop < b.start := by
  fun_induction linesFrom number start offset t with
  | case1 number start offset => exact List.pairwise_singleton _ _
  | case2 number start offset rest ih =>
    refine List.pairwise_cons.mpr ⟨fun line hline => ?_, ih (Nat.le_refl _)⟩
    have hstart := (bounds_of_mem_linesFrom (Nat.le_refl _) hline).1
    dsimp only
    omega
  | case3 number start offset c rest _ hbreak ih =>
    refine List.pairwise_cons.mpr ⟨fun line hline => ?_, ih (Nat.le_refl _)⟩
    exact (bounds_of_mem_linesFrom (Nat.le_refl _) hline).1
  | case4 number start offset c rest _ hchar ih => exact ih (Nat.le_succ_of_le h)

/-- A line of a text stops at or behind its start, and not behind the end of the text. -/
theorem bounds_of_mem_lines {line : Line} (h : line ∈ lines t) :
    line.start ≤ line.stop ∧ line.stop ≤ t.length := by
  have hbounds := bounds_of_mem_linesFrom (Nat.le_refl _) h
  omega

/-- The lines of a text start one behind the other. -/
theorem lines_pairwise (t : Text) : (lines t).Pairwise fun a b => a.start < b.start := by
  refine (linesFrom_pairwise (Nat.le_refl _)).imp_of_mem fun {a b} ha _ hlt => ?_
  exact Nat.lt_of_le_of_lt (bounds_of_mem_lines ha).1 hlt

/-- Lines of a text that start alike are the same line. -/
theorem eq_of_mem_lines {a b : Line} (ha : a ∈ lines t) (hb : b ∈ lines t)
    (h : a.start = b.start) : a = b := by
  obtain ⟨i, hi, rfl⟩ := List.getElem_of_mem ha
  obtain ⟨j, hj, rfl⟩ := List.getElem_of_mem hb
  have hascend := List.pairwise_iff_getElem.mp (lines_pairwise t)
  rcases Nat.lt_trichotomy i j with hlt | rfl | hlt
  · exact absurd h (Nat.ne_of_lt (hascend i j hi hj hlt))
  · rfl
  · exact absurd h (Nat.ne_of_gt (hascend j i hj hi hlt))

section InForce

variable {line : Line} {rest : List Line}

/-- The line in force is one of those at hand. -/
theorem lineInForce_mem (offset : Nat) (line : Line) (rest : List Line) :
    lineInForce offset line rest ∈ line :: rest := by
  induction rest generalizing line with
  | nil => exact List.mem_cons_self
  | cons next rest ih =>
    rw [lineInForce]
    split
    case isTrue => exact List.mem_cons_of_mem _ (ih next)
    case isFalse => exact List.mem_cons_self

/-- The line in force starts at or before the offset if the first one does. -/
theorem start_lineInForce_le (h : line.start ≤ offset) :
    (lineInForce offset line rest).start ≤ offset := by
  induction rest generalizing line with
  | nil => exact h
  | cons next rest ih =>
    rw [lineInForce]
    split
    case isTrue hnext => exact ih hnext
    case isFalse => exact h

/-- No line that starts at or before the offset starts behind the line in force. -/
theorem start_le_start_lineInForce {other : Line}
    (ascends : (line :: rest).Pairwise fun a b => a.start < b.start) (hmem : other ∈ line :: rest)
    (h : other.start ≤ offset) : other.start ≤ (lineInForce offset line rest).start := by
  induction rest generalizing line other with
  | nil =>
    obtain rfl := List.mem_singleton.mp hmem
    exact Nat.le_refl _
  | cons next rest ih =>
    obtain ⟨hfirst, hrest⟩ := List.pairwise_cons.mp ascends
    rw [lineInForce]
    split
    case isTrue hnext =>
      rcases List.mem_cons.mp hmem with rfl | hmem
      · have hlt := hfirst next List.mem_cons_self
        have hle := ih hrest List.mem_cons_self hnext
        omega
      · exact ih hrest hmem h
    case isFalse hnext =>
      rcases List.mem_cons.mp hmem with rfl | hmem
      · exact Nat.le_refl _
      · rcases List.mem_cons.mp hmem with rfl | hmem
        · exact absurd h hnext
        · have hlt := (List.pairwise_cons.mp hrest).1 other hmem
          omega

end InForce

/-- The line at an offset is the line in force among all lines. -/
theorem exists_lineAt_eq (t : Text) (offset : Nat) : ∃ first rest, lines t = first :: rest ∧
    first.start = 0 ∧ lineAt t offset = lineInForce (min offset t.length) first rest := by
  obtain ⟨first, rest, hlines, hstart⟩ := exists_linesFrom_eq_cons 0 0 0 t
  refine ⟨first, rest, hlines, hstart, ?_⟩
  have heq : lines t = first :: rest := hlines
  rw [lineAt, heq]

/-- The line at an offset is a line of the text. -/
theorem lineAt_mem (t : Text) (offset : Nat) : lineAt t offset ∈ lines t := by
  obtain ⟨first, rest, hlines, -, heq⟩ := exists_lineAt_eq t offset
  rw [heq, hlines]
  exact lineInForce_mem _ _ _

/-- The line at an offset starts at or before it. -/
theorem start_lineAt_le (t : Text) (offset : Nat) : (lineAt t offset).start ≤ offset := by
  obtain ⟨first, rest, -, hzero, heq⟩ := exists_lineAt_eq t offset
  rw [heq]
  exact Nat.le_trans (start_lineInForce_le (by omega)) (Nat.min_le_left _ _)

/-- No line that starts at or before an offset starts behind the line at the offset. -/
theorem start_le_start_lineAt {line : Line} (hline : line ∈ lines t) (h : line.start ≤ offset) :
    line.start ≤ (lineAt t offset).start := by
  obtain ⟨first, rest, hlines, -, heq⟩ := exists_lineAt_eq t offset
  have hbounds := bounds_of_mem_lines hline
  have ascends := lines_pairwise t
  rw [hlines] at hline ascends
  rw [heq]
  exact start_le_start_lineInForce ascends hline (by omega)

/-- A later offset is not in an earlier line. -/
theorem start_lineAt_mono (t : Text) {offset later : Nat} (h : offset ≤ later) :
    (lineAt t offset).start ≤ (lineAt t later).start :=
  start_le_start_lineAt (lineAt_mem t offset) (Nat.le_trans (start_lineAt_le t offset) h)

/-- The line at the start of a line is that line. -/
theorem lineAt_start {line : Line} (h : line ∈ lines t) : lineAt t line.start = line :=
  eq_of_mem_lines (lineAt_mem t _) h
    (Nat.le_antisymm (start_lineAt_le t _) (start_le_start_lineAt h (Nat.le_refl _)))

end Marginalia.Text
