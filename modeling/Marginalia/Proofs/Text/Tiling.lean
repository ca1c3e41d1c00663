import Mathlib.Data.List.Chain
import Marginalia.Proofs.Text.Line
import Marginalia.Document

/-!
# Lines tile the text

What a line break is can be said of the text alone: the pair of carriage return and line feed, or
one character that breaks lines and is not half of such a pair. The lines of a text lie between
its breaks: each line but the last ends with a break, none has a break character inside, and the
last reaches to the end of the text. So every break of the text ends a line, and the two ways to
look lines up, by number and by offset, agree.
-/

namespace Marginalia

namespace Text

/-- A carriage return at `i` and a line feed right behind it. -/
def PairAt (t : Text) (i : Nat) : Prop := t[i]? = some '\r' ∧ t[i + 1]? = some '\n'

/-- A carriage return right in front of `i` and a line feed at `i`. No such `i` is the start of the
text, where both would be one character. -/
def SplitsPair (t : Text) (i : Nat) : Prop := t[i - 1]? = some '\r' ∧ t[i]? = some '\n'

instance (t : Text) (i : Nat) : Decidable (PairAt t i) := inferInstanceAs (Decidable (_ ∧ _))

instance (t : Text) (i : Nat) : Decidable (SplitsPair t i) := inferInstanceAs (Decidable (_ ∧ _))

/-- A character at `i` that ends lines. -/
def BreakCharAt (t : Text) (i : Nat) : Prop := ∃ c, t[i]? = some c ∧ isBreak c = true

/-- The characters from `start` up to `stop` are one line break, and a whole one. -/
inductive BreakAt (t : Text) : Nat → Nat → Prop where
  /-- The pair of carriage return and line feed. -/
  | pair {i : Nat} (h : PairAt t i) : BreakAt t i (i + 2)
  /-- One character, which is not half of such a pair. -/
  | single {i : Nat} (h : BreakCharAt t i) (first : ¬ PairAt t i) (second : ¬ SplitsPair t i) :
    BreakAt t i (i + 1)

variable {t : Text} {number start offset : Nat}

/-- A break begins with a break character. -/
theorem BreakAt.breakCharAt {a b : Nat} (h : BreakAt t a b) : BreakCharAt t a := by
  cases h with
  | pair h => exact ⟨_, h.1, rfl⟩
  | single h _ _ => exact h

/-- No break begins inside a pair. -/
theorem BreakAt.not_splitsPair {a b : Nat} (h : BreakAt t a b) : ¬ SplitsPair t a := by
  cases h with
  | pair h =>
    intro hsplits
    have heq := h.1.symm.trans hsplits.2
    simp at heq
  | single _ _ second => exact second

/-- A break is a pair or a single character. -/
theorem BreakAt.stop_eq {a b : Nat} (h : BreakAt t a b) :
    (PairAt t a ∧ b = a + 2) ∨ (¬ PairAt t a ∧ b = a + 1) := by
  cases h with
  | pair h => exact Or.inl ⟨h, rfl⟩
  | single _ first _ => exact Or.inr ⟨first, rfl⟩

/-- Where a break ends is settled by where it begins. -/
theorem BreakAt.stop_unique {a b b' : Nat} (h : BreakAt t a b) (h' : BreakAt t a b') : b = b' := by
  rcases h.stop_eq with ⟨hpair, rfl⟩ | ⟨hpair, rfl⟩ <;>
    rcases h'.stop_eq with ⟨hpair', rfl⟩ | ⟨hpair', rfl⟩
  · rfl
  · exact absurd hpair hpair'
  · exact absurd hpair' hpair
  · rfl

/-- A break lies in the text. -/
theorem BreakAt.lt_length {a b : Nat} (h : BreakAt t a b) : a < t.length := by
  obtain ⟨c, hc, -⟩ := h.breakCharAt
  exact (List.getElem?_eq_some_iff.mp hc).1

/-- Numbers of lines count up from that of the line that is under way. -/
theorem map_number_linesFrom (number start offset : Nat) (t : Text) :
    (linesFrom number start offset t).map (·.number) =
      List.range' number (linesFrom number start offset t).length := by
  fun_induction linesFrom number start offset t with
  | case1 number start offset => rfl
  | case2 number start offset rest ih =>
    rw [List.map_cons, List.length_cons, List.range'_succ, ih]
  | case3 number start offset c rest _ hbreak ih =>
    rw [List.map_cons, List.length_cons, List.range'_succ, ih]
  | case4 number start offset c rest _ hchar ih => exact ih

/-- The last line of the rest of a text stops where the text does. -/
theorem exists_getLast?_linesFrom (number start offset : Nat) (t : Text) :
    ∃ last, (linesFrom number start offset t).getLast? = some last ∧
      last.stop = offset + t.length := by
  fun_induction linesFrom number start offset t with
  | case1 number start offset => exact ⟨_, rfl, rfl⟩
  | case2 number start offset rest ih =>
    obtain ⟨last, hlast, hstop⟩ := ih
    refine ⟨last, by rw [List.getLast?_cons, hlast, Option.getD_some], ?_⟩
    simp only [hstop, List.length_cons]
    omega
  | case3 number start offset c rest _ hbreak ih =>
    obtain ⟨last, hlast, hstop⟩ := ih
    refine ⟨last, by rw [List.getLast?_cons, hlast, Option.getD_some], ?_⟩
    simp only [hstop, List.length_cons]
    omega
  | case4 number start offset c rest _ hchar ih =>
    obtain ⟨last, hlast, hstop⟩ := ih
    refine ⟨last, hlast, ?_⟩
    simp only [hstop, List.length_cons]
    omega

section Rest

variable {whole : Text}

/-- The rest of a text has the characters that the text has from there on. -/
theorem getElem?_of_drop (hrest : whole.drop offset = t) (i : Nat) :
    whole[offset + i]? = t[i]? := by
  rw [← hrest, List.getElem?_drop]

/-- What is left behind the first characters of the rest of a text is left of the text. -/
theorem drop_add_of_drop (hrest : whole.drop offset = t) (n : Nat) :
    whole.drop (offset + n) = t.drop n := by
  rw [← hrest, List.drop_drop]

/-- A character of the text that is not read as the first of a pair is none. -/
theorem not_pairAt_of_drop {c : Char} {rest : Text} (hrest : whole.drop offset = c :: rest)
    (hlone : ∀ behind, c = '\r' → rest = '\n' :: behind → False) : ¬ PairAt whole offset := by
  rintro ⟨hreturn, hfeed⟩
  have hfirst := getElem?_of_drop hrest 0
  have hsecond := getElem?_of_drop hrest 1
  rw [Nat.add_zero, hreturn, List.getElem?_cons_zero] at hfirst
  rw [hfeed, List.getElem?_cons_succ] at hsecond
  cases rest with
  | nil => simp at hsecond
  | cons d behind => exact hlone behind (Option.some.inj hfirst).symm (by simpa using hsecond.symm)

/-- No line of the rest of a text has a break character inside, if the line that is under way has
none so far. -/
theorem not_breakCharAt_of_mem_linesFrom (hrest : whole.drop offset = t)
    (hunder : ∀ i, start ≤ i → i < offset → ¬ BreakCharAt whole i) {line : Line}
    (hline : line ∈ linesFrom number start offset t) :
    ∀ i, line.start ≤ i → i < line.stop → ¬ BreakCharAt whole i := by
  fun_induction linesFrom number start offset t with
  | case1 number start offset =>
    obtain rfl := List.mem_singleton.mp hline
    exact hunder
  | case2 number start offset rest ih =>
    rcases List.mem_cons.mp hline with rfl | hline
    · exact hunder
    · exact ih (drop_add_of_drop hrest 2) (by omega) hline
  | case3 number start offset c rest _ hbreak ih =>
    rcases List.mem_cons.mp hline with rfl | hline
    · exact hunder
    · exact ih (drop_add_of_drop hrest 1) (by omega) hline
  | case4 number start offset c rest _ hchar ih =>
    refine ih (drop_add_of_drop hrest 1) (fun i hstart hi => ?_) hline
    rcases Nat.lt_succ_iff_lt_or_eq.mp hi with hi | rfl
    · exact hunder i hstart hi
    · rintro ⟨d, hd, hbreak⟩
      have hc := getElem?_of_drop hrest 0
      rw [Nat.add_zero, hd] at hc
      obtain rfl := Option.some.inj hc
      exact hchar hbreak

/-- From each line of the rest of a text to the next there is one whole break, if the rest does not
begin inside a pair. -/
theorem isChain_linesFrom (hrest : whole.drop offset = t) (houtside : ¬ SplitsPair whole offset) :
    (linesFrom number start offset t).IsChain fun a b => BreakAt whole a.stop b.start := by
  fun_induction linesFrom number start offset t with
  | case1 number start offset => exact List.isChain_singleton _
  | case2 number start offset rest ih =>
    obtain ⟨next, others, hlines, hnext⟩ :=
      exists_linesFrom_eq_cons (number + 1) (offset + 2) (offset + 2) rest
    have hreturn := getElem?_of_drop hrest 0
    have hfeed := getElem?_of_drop hrest 1
    have hpair : PairAt whole offset := ⟨hreturn, hfeed⟩
    have hlater := ih (drop_add_of_drop hrest 2) fun hsplits => by
      have heq := hfeed.symm.trans hsplits.1
      simp at heq
    rw [hlines] at hlater ⊢
    refine List.isChain_cons_cons.mpr ⟨?_, hlater⟩
    rw [hnext]
    exact .pair hpair
  | case3 number start offset c rest hlone hbreak ih =>
    obtain ⟨next, others, hlines, hnext⟩ :=
      exists_linesFrom_eq_cons (number + 1) (offset + 1) (offset + 1) rest
    have hc := getElem?_of_drop hrest 0
    have hfirst := not_pairAt_of_drop hrest hlone
    have hlater := ih (drop_add_of_drop hrest 1) hfirst
    rw [hlines] at hlater ⊢
    refine List.isChain_cons_cons.mpr ⟨?_, hlater⟩
    rw [hnext]
    exact .single ⟨c, hc, hbreak⟩ hfirst houtside
  | case4 number start offset c rest hlone hchar ih =>
    exact ih (drop_add_of_drop hrest 1) (not_pairAt_of_drop hrest hlone)

end Rest

section Numbered

variable {k : Nat}

/-- A line by its number, if there are that many. -/
theorem line_eq_getElem (h : k < (lines t).length) : line t k = (lines t)[k] := by
  have hclamped : min k ((lines t).length - 1) = k := by omega
  unfold line
  dsimp only
  rw [hclamped, List.getElem?_eq_getElem h, Option.getD_some]

/-- A line by its number, as it stands in the list. -/
theorem line_eq_of_getElem? {l : Line} (h : (lines t)[k]? = some l) : line t k = l := by
  obtain ⟨hk, heq⟩ := List.getElem?_eq_some_iff.mp h
  rw [line_eq_getElem hk, heq]

/-- Every text has a line. -/
theorem length_lines_pos (t : Text) : 0 < (lines t).length :=
  List.length_pos_of_ne_nil (lines_ne_nil t)

/-- Every number gives a line of the text: one past the last line gives the last. -/
theorem line_mem (t : Text) (k : Nat) : line t k ∈ lines t := by
  have hpos := length_lines_pos t
  have hclamped : min k ((lines t).length - 1) < (lines t).length := by omega
  unfold line
  dsimp only
  rw [List.getElem?_eq_getElem hclamped, Option.getD_some]
  exact List.getElem_mem _

/-- Every line of a text has a number. -/
theorem exists_line_eq_of_mem {l : Line} (h : l ∈ lines t) :
    ∃ k < (lines t).length, line t k = l := by
  obtain ⟨k, hk, rfl⟩ := List.getElem_of_mem h
  exact ⟨k, hk, line_eq_getElem hk⟩

/-- The number of a line counts the lines in front of it. -/
theorem number_line (h : k < (lines t).length) : (line t k).number = k := by
  have hnumbers := map_number_linesFrom 0 0 0 t
  have hk : ((lines t).map (·.number))[k]? = (List.range' 0 (lines t).length)[k]? :=
    congrArg (·[k]?) hnumbers
  rw [List.getElem?_map, List.getElem?_eq_getElem h, List.getElem?_range' h] at hk
  rw [line_eq_getElem h]
  simpa using hk

/-- The first line starts with the text. -/
theorem start_line_zero (t : Text) : (line t 0).start = 0 := by
  obtain ⟨first, rest, hlines, hstart⟩ := exists_linesFrom_eq_cons 0 0 0 t
  have hfirst : (lines t)[0]? = some first := by
    rw [lines, hlines, List.getElem?_cons_zero]
  rw [line_eq_of_getElem? hfirst, hstart]

/-- Later lines start behind earlier ones. -/
theorem start_line_lt_start_line {j : Nat} (hjk : j < k) (hk : k < (lines t).length) :
    (line t j).start < (line t k).start := by
  rw [line_eq_getElem (Nat.lt_trans hjk hk), line_eq_getElem hk]
  exact List.pairwise_iff_getElem.mp (lines_pairwise t) j k _ hk hjk

/-- Lines that start alike have one number. -/
theorem number_eq_of_start_eq {j : Nat} (hj : j < (lines t).length) (hk : k < (lines t).length)
    (h : (line t j).start = (line t k).start) : j = k := by
  have hsame := eq_of_mem_lines (line_mem t j) (line_mem t k) h
  rw [← number_line hj, hsame, number_line hk]

/-- From each line to the next there is one whole break. -/
theorem breakAt_line (h : k + 1 < (lines t).length) :
    BreakAt t (line t k).stop (line t (k + 1)).start := by
  have houtside : ¬ SplitsPair t 0 := by
    rintro ⟨hreturn, hfeed⟩
    have heq := hreturn.symm.trans hfeed
    simp at heq
  have hchain : (lines t).IsChain fun a b => BreakAt t a.stop b.start :=
    isChain_linesFrom rfl houtside
  rw [line_eq_getElem (Nat.lt_of_succ_lt h), line_eq_getElem h]
  exact List.isChain_iff_getElem.mp hchain k h

/-- No line has a break character inside. -/
theorem not_breakCharAt_line {i : Nat} (hstart : (line t k).start ≤ i)
    (hstop : i < (line t k).stop) : ¬ BreakCharAt t i :=
  not_breakCharAt_of_mem_linesFrom rfl (fun _ _ hi => absurd hi (Nat.not_lt_zero _))
    (line_mem t k) i hstart hstop

/-- A line with none behind it stops where the text does. -/
theorem stop_line_of_last (h : k < (lines t).length) (hlast : (lines t).length ≤ k + 1) :
    (line t k).stop = t.length := by
  obtain ⟨last, hget, hstop⟩ := exists_getLast?_linesFrom 0 0 0 t
  have hk : (lines t)[k]? = some last := by
    obtain rfl : k = (lines t).length - 1 := by omega
    rw [← List.getLast?_eq_getElem?]
    exact hget
  rw [line_eq_of_getElem? hk, hstop, Nat.zero_add]

/-- A line that stops in front of the end of the text has a next one. -/
theorem succ_lt_of_stop_lt (h : k < (lines t).length) (hstop : (line t k).stop < t.length) :
    k + 1 < (lines t).length := by
  refine Nat.lt_of_not_le fun hlast => ?_
  rw [stop_line_of_last h hlast] at hstop
  exact absurd hstop (Nat.lt_irrefl _)

end Numbered

section ByOffset

variable {k : Nat}

/-- The offset is in line `k`: not in front of its start, and in front of the start of the next
line if there is one. So a line has its break, and the last line has the end of the text. -/
structure InLine (t : Text) (k offset : Nat) : Prop where
  numbered : k < (lines t).length
  start_le : (line t k).start ≤ offset
  lt_next : k + 1 < (lines t).length → offset < (line t (k + 1)).start

instance (t : Text) (k offset : Nat) : Decidable (InLine t k offset) :=
  decidable_of_iff (k < (lines t).length ∧ (line t k).start ≤ offset ∧
      (k + 1 < (lines t).length → offset < (line t (k + 1)).start))
    ⟨fun h => ⟨h.1, h.2.1, h.2.2⟩, fun h => ⟨h.numbered, h.start_le, h.lt_next⟩⟩

/-- Lines start in the order of their numbers. -/
theorem start_line_le_start_line {j : Nat} (hjk : j ≤ k) (hk : k < (lines t).length) :
    (line t j).start ≤ (line t k).start := by
  rcases Nat.eq_or_lt_of_le hjk with rfl | hlt
  · exact Nat.le_refl _
  · exact Nat.le_of_lt (start_line_lt_start_line hlt hk)

/-- The line at an offset has a number, and the offset is in the line of that number. -/
theorem exists_lineAt_eq_line (t : Text) (offset : Nat) :
    ∃ k, lineAt t offset = line t k ∧ InLine t k offset := by
  obtain ⟨k, hk, hline⟩ := exists_line_eq_of_mem (lineAt_mem t offset)
  refine ⟨k, hline.symm, hk, ?_, fun hnext => Nat.lt_of_not_le fun hle => ?_⟩
  · rw [hline]
    exact start_lineAt_le t offset
  · -- the next line would start at or before the offset, and behind the line that is there
    have hlast := start_le_start_lineAt (line_mem t (k + 1)) hle
    rw [← hline] at hlast
    exact absurd (start_line_lt_start_line (Nat.lt_succ_self k) hnext) (Nat.not_lt.mpr hlast)

/-- Of the lines that start at or before an offset, the one that it is in is the last. -/
theorem InLine.le {j : Nat} (h : InLine t k offset) (hj : j < (lines t).length)
    (hstart : (line t j).start ≤ offset) : j ≤ k := by
  refine Nat.le_of_not_lt fun hkj => ?_
  have hnext := h.lt_next (Nat.lt_of_le_of_lt hkj hj)
  have horder : (line t (k + 1)).start ≤ (line t j).start := start_line_le_start_line hkj hj
  omega

/-- An offset is in one line only. -/
theorem InLine.unique {j : Nat} (h : InLine t k offset) (h' : InLine t j offset) : j = k :=
  Nat.le_antisymm (h.le h'.numbered h'.start_le) (h'.le h.numbered h.start_le)

/-- The line at an offset is the line that the offset is in. -/
theorem InLine.lineAt_eq (h : InLine t k offset) : lineAt t offset = line t k := by
  obtain ⟨j, hline, hin⟩ := exists_lineAt_eq_line t offset
  rw [hline, h.unique hin]

/-- The number of the line at an offset is that of the line that the offset is in. -/
theorem inLine_number_lineAt (t : Text) (offset : Nat) :
    InLine t (lineAt t offset).number offset := by
  obtain ⟨k, hline, hin⟩ := exists_lineAt_eq_line t offset
  rwa [hline, number_line hin.numbered]

/-- A later offset is in no line with a smaller number. -/
theorem number_lineAt_mono (t : Text) {later : Nat} (h : offset ≤ later) :
    (lineAt t offset).number ≤ (lineAt t later).number := by
  have hin := inLine_number_lineAt t offset
  exact (inLine_number_lineAt t later).le hin.numbered (Nat.le_trans hin.start_le h)

/-- The line at an offset has the number of the line that the offset is in. -/
theorem InLine.number_lineAt (h : InLine t k offset) : (lineAt t offset).number = k :=
  h.unique (inLine_number_lineAt t offset)

/-- A stretch has an offset in each line from the one where it begins to the one where it ends, and
in no other. -/
theorem exists_inLine_between_iff {last : Nat} (ordered : offset ≤ last)
    (hk : k < (lines t).length) : (∃ i, offset ≤ i ∧ i ≤ last ∧ InLine t k i) ↔
      (lineAt t offset).number ≤ k ∧ k ≤ (lineAt t last).number := by
  constructor
  · rintro ⟨i, hfrom, hto, hin⟩
    rw [← hin.number_lineAt]
    exact ⟨number_lineAt_mono t hfrom, number_lineAt_mono t hto⟩
  · rintro ⟨hfrom, hto⟩
    have hfirst := inLine_number_lineAt t offset
    have hlast := inLine_number_lineAt t last
    have hstart := start_line_le_start_line hto hlast.numbered
    -- the first offset of the stretch that is not in front of the line
    refine ⟨max offset (line t k).start, Nat.le_max_left _ _,
      Nat.max_le.mpr ⟨ordered, Nat.le_trans hstart hlast.start_le⟩,
      hk, Nat.le_max_right _ _, fun hnext => Nat.max_lt.mpr ⟨?_, ?_⟩⟩
    · have hbehind := start_line_le_start_line (Nat.succ_le_succ hfrom) hnext
      exact Nat.lt_of_lt_of_le
        (hfirst.lt_next (Nat.lt_of_le_of_lt (Nat.succ_le_succ hfrom) hnext)) hbehind
    · exact start_line_lt_start_line (Nat.lt_succ_self k) hnext

/-- Every break of a text ends a line. -/
theorem BreakAt.exists_line {a b : Nat} (h : BreakAt t a b) :
    ∃ k, k + 1 < (lines t).length ∧ (line t k).stop = a ∧ (line t (k + 1)).start = b := by
  obtain ⟨k, -, hin⟩ := exists_lineAt_eq_line t a
  have hbehind : (line t k).stop ≤ a :=
    Nat.le_of_not_lt fun hinside => not_breakCharAt_line hin.start_le hinside h.breakCharAt
  have hnext := succ_lt_of_stop_lt hin.numbered (Nat.lt_of_le_of_lt hbehind h.lt_length)
  have hends := breakAt_line hnext
  have hlt := hin.lt_next hnext
  have hsame : (line t k).stop = a := by
    rcases hends.stop_eq with ⟨hpair, hwide⟩ | ⟨-, hnarrow⟩
    · -- between the two characters of a pair no break begins
      refine Nat.le_antisymm hbehind (Nat.le_of_not_lt fun hinside => ?_)
      obtain rfl : a = (line t k).stop + 1 := by omega
      exact h.not_splitsPair hpair
    · omega
  refine ⟨k, hnext, hsame, ?_⟩
  rw [hsame] at hends
  exact hends.stop_unique h

/-- In front of the end of the text, the line at an offset stops there exactly if a break begins
there. -/
theorem stop_lineAt_eq_iff (hinside : offset < t.length) :
    (lineAt t offset).stop = offset ↔ ∃ behind, BreakAt t offset behind := by
  constructor
  · intro hstop
    obtain ⟨k, hline, hin⟩ := exists_lineAt_eq_line t offset
    rw [hline] at hstop
    have hnext := succ_lt_of_stop_lt hin.numbered (by rwa [hstop])
    have hbreak := breakAt_line hnext
    rw [hstop] at hbreak
    exact ⟨_, hbreak⟩
  · rintro ⟨behind, hbreak⟩
    obtain ⟨k, hk, hstop, hstart⟩ := hbreak.exists_line
    have hbounds := bounds_of_mem_lines (line_mem t k)
    have hends := (breakAt_line hk).stop_eq
    have hin : InLine t k offset := ⟨by omega, by omega, fun _ => by omega⟩
    rw [hin.lineAt_eq, hstop]

/-- Unless an offset is inside a pair, the line at it does not stop in front of it. -/
theorem le_stop_lineAt (hinside : offset ≤ t.length) (whole : ¬ SplitsPair t offset) :
    offset ≤ (lineAt t offset).stop := by
  obtain ⟨k, hline, hin⟩ := exists_lineAt_eq_line t offset
  rw [hline]
  rcases Nat.lt_or_ge (k + 1) (lines t).length with hnext | hlast
  · have hlt := hin.lt_next hnext
    rcases (breakAt_line hnext).stop_eq with ⟨hpair, hwide⟩ | ⟨-, hnarrow⟩
    · -- behind the stop the line only has the place inside the pair
      refine Nat.le_of_not_lt fun hbehind => whole ?_
      obtain rfl : offset = (line t k).stop + 1 := by omega
      exact hpair
    · omega
  · rw [stop_line_of_last hin.numbered hlast]
    exact hinside

end ByOffset

end Text

namespace Document

/-- The lines of a document tile its text. The first begins with the text, each other one behind the
one whole break that ends the line in front of it, none has a break character inside, and the last
ends with the text. A line is numbered by its place. The line at an offset is the last of those that
start at or before it, or before the end of the text. So later offsets are in later lines or the
same, and the start of a line is in that line. -/
theorem lines_tile_text (doc : Document) :
    0 < doc.lineCount ∧ (doc.line 0).start = 0 ∧
      (∀ k < doc.lineCount, (doc.line k).number = k ∧ (doc.line k).start ≤ (doc.line k).stop ∧
        ∀ i, (doc.line k).start ≤ i → i < (doc.line k).stop → ¬ Text.BreakCharAt doc.text i) ∧
      (∀ k, k + 1 < doc.lineCount →
        Text.BreakAt doc.text (doc.line k).stop (doc.line (k + 1)).start) ∧
      (doc.line (doc.lineCount - 1)).stop = doc.length ∧
      (∀ offset, ∃ k < doc.lineCount, doc.lineAt offset = doc.line k ∧
        (doc.line k).start ≤ min offset doc.length ∧
        ∀ j < doc.lineCount, (doc.line j).start ≤ min offset doc.length → j ≤ k) ∧
      (∀ offset later, offset ≤ later →
        (doc.lineAt offset).number ≤ (doc.lineAt later).number) ∧
      ∀ k, doc.lineAt (doc.line k).start = doc.line k := by
  have hpos := Text.length_lines_pos doc.text
  have hlast : doc.text.lines.length - 1 < doc.text.lines.length := by omega
  have hend : doc.text.lines.length ≤ doc.text.lines.length - 1 + 1 := by omega
  refine ⟨hpos, Text.start_line_zero _, fun k hk => ⟨Text.number_line hk, ?_, fun i => ?_⟩,
    fun k hk => Text.breakAt_line hk, Text.stop_line_of_last hlast hend, fun offset => ?_,
    fun offset later => Text.number_lineAt_mono _, fun k => Text.lineAt_start (Text.line_mem _ k)⟩
  · exact (Text.bounds_of_mem_lines (Text.line_mem _ k)).1
  · exact Text.not_breakCharAt_line
  · obtain ⟨k, hline, hin⟩ := Text.exists_lineAt_eq_line doc.text offset
    have hbounds := Text.bounds_of_mem_lines (Text.line_mem doc.text k)
    refine ⟨k, hin.numbered, hline, Nat.le_min.mpr ⟨hin.start_le, ?_⟩, fun j hj hstart => ?_⟩
    · exact Nat.le_trans hbounds.1 hbounds.2
    · exact hin.le hj (Nat.le_trans hstart (Nat.min_le_left _ _))

/-- A pair is one break, a line feed behind it another, and the last line is empty. -/
example : (ofText "main" ['a', '\r', '\n', '\n', 'b', '\u2028']).text.lines =
    [⟨0, 0, 1⟩, ⟨1, 3, 3⟩, ⟨2, 4, 5⟩, ⟨3, 6, 6⟩] := by
  decide

end Document

end Marginalia
