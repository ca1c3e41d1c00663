import Marginalia.Json.Reader
import Marginalia.Proofs.Json.Number
import Marginalia.Proofs.Json.Quoted

/-!
# What is a text of JSON

The grammar says how a value may be written: with blanks wherever they may stand, numbers with any
sign and exponent that they allow, and strings with or without escapes. Main statement: reading a
text gives a value exactly if the text is a way to write that value. In one direction the proof
follows the grammar, where what follows a value never continues a number and reading spends at most
two calls for each character. In the other it follows the calls.
-/

namespace Marginalia.Json

open Number (EndsNumber)

/-- Blanks and nothing else. -/
def IsGap (cs : List Char) : Prop := ∀ c ∈ cs, isBlank c = true

mutual

/-- The text is a way to write the value, from its first character to its last. -/
inductive Spells : List Char → Json → Prop where
  | nullWord : Spells ['n', 'u', 'l', 'l'] .null
  | trueWord : Spells ['t', 'r', 'u', 'e'] (.bool true)
  | falseWord : Spells ['f', 'a', 'l', 's', 'e'] (.bool false)
  | number {cs : List Char} {n : Number} (h : n.Spells cs) : Spells cs (.number n)
  | string {cs : List Char} {pieces : List Piece} (h : Quoted.Spells cs pieces) :
      Spells ('"' :: (cs ++ ['"'])) (.string (contentOf pieces))
  | emptyArray {gap : List Char} (h : IsGap gap) : Spells ('[' :: (gap ++ [']'])) (.array [])
  | array {cs : List Char} {items : List Json} (h : SpellsItems cs items) :
      Spells ('[' :: (cs ++ [']'])) (.array items)
  | emptyObject {gap : List Char} (h : IsGap gap) :
      Spells ('\x7b' :: (gap ++ ['\x7d'])) (.object [])
  | object {cs : List Char} {members : List (Option String × Json)}
      (h : SpellsMembers cs members) : Spells ('\x7b' :: (cs ++ ['\x7d'])) (.object members)

/-- The text is a way to write the items of an array, with commas between them. -/
inductive SpellsItems : List Char → List Json → Prop where
  | last {front cs back : List Char} {item : Json} (before : IsGap front) (value : Spells cs item)
      (after : IsGap back) : SpellsItems (front ++ (cs ++ back)) [item]
  | more {front cs back rest : List Char} {item : Json} {items : List Json} (before : IsGap front)
      (value : Spells cs item) (after : IsGap back) (others : SpellsItems rest items) :
      SpellsItems (front ++ (cs ++ (back ++ ',' :: rest))) (item :: items)

/-- The text is a way to write the members of an object, with commas between them. -/
inductive SpellsMembers : List Char → List (Option String × Json) → Prop where
  | last {front name gap mid cs back : List Char} {pieces : List Piece} {value : Json}
      (before : IsGap front) (named : Quoted.Spells name pieces) (colon : IsGap gap)
      (between : IsGap mid) (held : Spells cs value) (after : IsGap back) :
      SpellsMembers (front ++ '"' :: (name ++ '"' :: (gap ++ ':' :: (mid ++ (cs ++ back)))))
        [(contentOf pieces, value)]
  | more {front name gap mid cs back rest : List Char} {pieces : List Piece} {value : Json}
      {members : List (Option String × Json)}
      (before : IsGap front) (named : Quoted.Spells name pieces) (colon : IsGap gap)
      (between : IsGap mid) (held : Spells cs value) (after : IsGap back)
      (others : SpellsMembers rest members) :
      SpellsMembers
        (front ++ '"' :: (name ++ '"' :: (gap ++ ':' :: (mid ++ (cs ++ (back ++ ',' :: rest))))))
        ((contentOf pieces, value) :: members)

end

/-- The text is a way to write the value, with blanks before and behind it. -/
def IsText (cs : List Char) (v : Json) : Prop :=
  ∃ front t back, IsGap front ∧ Spells t v ∧ IsGap back ∧ cs = front ++ (t ++ back)

section Blanks

variable {gap cs rest : List Char} {bound : Nat}

/-- No character is a blank of nothing. -/
theorem isGap_nil : IsGap [] := nofun

/-- Blanks in a row are blanks. -/
theorem IsGap.append (hgap : IsGap gap) (hcs : IsGap cs) : IsGap (gap ++ cs) :=
  List.forall_mem_append.mpr ⟨hgap, hcs⟩

/-- A character that is not blank starts what is left after blanks. -/
theorem skipBlanks_cons {c : Char} (hc : isBlank c = false) (rest : List Char) :
    skipBlanks (c :: rest) = c :: rest := by
  simp [skipBlanks, hc]

/-- Blanks in front are skipped. -/
theorem skipBlanks_gap_append (hgap : IsGap gap) (cs : List Char) :
    skipBlanks (gap ++ cs) = skipBlanks cs := List.dropWhile_append_of_pos hgap

/-- What is skipped are blanks. -/
theorem exists_gap_append_skipBlanks (cs : List Char) :
    ∃ gap, IsGap gap ∧ cs = gap ++ skipBlanks cs :=
  ⟨cs.takeWhile isBlank, fun c hc => List.all_eq_true.mp List.all_takeWhile c hc,
    List.takeWhile_append_dropWhile.symm⟩

/-- What stands behind a value in an array or in an object ends a number. -/
theorem endsNumber_cons {c : Char} (hc : c ∈ [',', ']', '\x7d']) (rest : List Char) :
    EndsNumber (c :: rest) := by
  simp only [List.mem_cons, List.not_mem_nil, or_false] at hc
  rcases hc with rfl | rfl | rfl <;> simp [EndsNumber]

/-- Blanks and what ends a number end a number. -/
theorem IsGap.endsNumber_append (hgap : IsGap gap) (hrest : EndsNumber rest) :
    EndsNumber (gap ++ rest) := by
  cases gap with
  | nil => exact hrest
  | cons c gap =>
    intro d hd
    obtain rfl : c = d := Option.some.inj hd
    have hblank : isBlank c = true := hgap c List.mem_cons_self
    simp only [isBlank, Bool.or_eq_true, beq_iff_eq] at hblank
    rcases hblank with ((rfl | rfl) | rfl) | rfl <;> decide

/-- Blanks before a value are skipped. -/
theorem readValue_gap_append (hgap : IsGap gap) (bound : Nat) (cs : List Char) :
    readValue bound (gap ++ cs) = readValue bound cs := by
  cases bound with
  | zero => simp [readValue]
  | succ bound => rw [readValue, readValue, skipBlanks_gap_append hgap]

/-- Blanks before a value may be skipped beforehand. -/
theorem readItems_skipBlanks (bound : Nat) (cs : List Char) :
    readItems bound (skipBlanks cs) = readItems bound cs := by
  obtain ⟨gap, hgap, heq⟩ := exists_gap_append_skipBlanks cs
  cases bound with
  | zero => simp [readItems]
  | succ bound =>
    rw [readItems, readItems]
    conv_rhs => rw [heq, readValue_gap_append hgap]

/-- Blanks before a member may be skipped beforehand. -/
theorem readMembers_skipBlanks (bound : Nat) (cs : List Char) :
    readMembers bound (skipBlanks cs) = readMembers bound cs := by
  cases bound with
  | zero => simp [readMembers]
  | succ bound =>
    obtain ⟨gap, hgap, heq⟩ := exists_gap_append_skipBlanks cs
    have hskip : skipBlanks cs = skipBlanks (skipBlanks cs) := by
      conv_lhs => rw [heq, skipBlanks_gap_append hgap]
    rw [readMembers, readMembers, ← hskip]

end Blanks

section Calls

variable {bound : Nat} {c : Char} {cs more rest : List Char} {pieces : List Piece}
  {item value : Json}

/-- A character that starts a number is no other character that starts a value or ends one. -/
theorem start_number_ne {d : Char} (hc : c = '-' ∨ c.isDigit = true) (hd : d.isDigit = false)
    (hsign : d ≠ '-') : c ≠ d := by
  rintro rfl
  simp_all

/-- A digit or a sign starts a number. -/
theorem readValue_number (hc : c = '-' ∨ c.isDigit = true) :
    readValue (bound + 1) (c :: rest)
      = (Number.read (c :: rest)).map fun (n, rest) => (.number n, rest) := by
  have hblank : isBlank c = false := by simp [isBlank, start_number_ne hc]
  rw [readValue, skipBlanks_cons hblank]
  split
  case h_7 => rfl
  all_goals
    next heq =>
      obtain ⟨rfl, -⟩ := List.cons.inj heq
      exact absurd hc (by decide)

/-- A quote starts a string. -/
theorem readValue_quote (bound : Nat) (rest : List Char) :
    readValue (bound + 1) ('"' :: rest) = (Quoted.readPieces rest).map fun (pieces, rest) =>
      (.string (contentOf pieces), rest) := rfl

/-- A bracket starts an array, which has no items if it is closed at once. -/
theorem readValue_bracket_closed (hskip : skipBlanks cs = ']' :: rest) :
    readValue (bound + 1) ('[' :: cs) = some (.array [], rest) := by
  rw [readValue, skipBlanks_cons (by decide)]
  simp only [hskip]

/-- A bracket starts an array, which has items unless it is closed at once. -/
theorem readValue_bracket (hskip : skipBlanks cs = c :: more) (hc : c ≠ ']') :
    readValue (bound + 1) ('[' :: cs) = (readItems bound cs).map fun (items, rest) =>
      (.array items, rest) := by
  rw [readValue, skipBlanks_cons (by decide)]
  simp only [hskip]
  split
  · next heq => exact absurd (List.cons.inj heq).1 hc
  · rw [← hskip, readItems_skipBlanks]

/-- A brace starts an object, which has no members if it is closed at once. -/
theorem readValue_brace_closed (hskip : skipBlanks cs = '\x7d' :: rest) :
    readValue (bound + 1) ('\x7b' :: cs) = some (.object [], rest) := by
  rw [readValue, skipBlanks_cons (by decide)]
  simp only [hskip]

/-- A brace starts an object, which has members unless it is closed at once. -/
theorem readValue_brace (hskip : skipBlanks cs = c :: more) (hc : c ≠ '\x7d') :
    readValue (bound + 1) ('\x7b' :: cs) = (readMembers bound cs).map fun (members, rest) =>
      (.object members, rest) := by
  rw [readValue, skipBlanks_cons (by decide)]
  simp only [hskip]
  split
  · next heq => exact absurd (List.cons.inj heq).1 hc
  · rw [← hskip, readMembers_skipBlanks]

/-- A comma after an item is followed by further items. -/
theorem readItems_comma (hitem : readValue bound cs = some (item, more))
    (hskip : skipBlanks more = ',' :: rest) :
    readItems (bound + 1) cs = (readItems bound rest).map fun (items, rest) =>
      (item :: items, rest) := by
  rw [readItems, hitem]
  simp only [hskip]

/-- A bracket after an item ends the items. -/
theorem readItems_bracket (hitem : readValue bound cs = some (item, more))
    (hskip : skipBlanks more = ']' :: rest) : readItems (bound + 1) cs = some ([item], rest) := by
  rw [readItems, hitem]
  simp only [hskip]

/-- A comma after a member is followed by further members. -/
theorem readMembers_comma {named left tail : List Char} (hquote : skipBlanks cs = '"' :: named)
    (hname : Quoted.readPieces named = some (pieces, more)) (hcolon : skipBlanks more = ':' :: left)
    (hvalue : readValue bound left = some (value, tail)) (hskip : skipBlanks tail = ',' :: rest) :
    readMembers (bound + 1) cs = (readMembers bound rest).map fun (members, rest) =>
      ((contentOf pieces, value) :: members, rest) := by
  rw [readMembers, hquote]
  simp only [hname, hcolon, hvalue, hskip]

/-- A brace after a member ends the members. -/
theorem readMembers_brace {named left tail : List Char} (hquote : skipBlanks cs = '"' :: named)
    (hname : Quoted.readPieces named = some (pieces, more)) (hcolon : skipBlanks more = ':' :: left)
    (hvalue : readValue bound left = some (value, tail))
    (hskip : skipBlanks tail = '\x7d' :: rest) :
    readMembers (bound + 1) cs = some ([(contentOf pieces, value)], rest) := by
  rw [readMembers, hquote]
  simp only [hname, hcolon, hvalue, hskip]

end Calls

/-- A text for a value starts with a character that is neither a blank nor a closing bracket. -/
theorem Spells.exists_eq_cons {cs : List Char} {v : Json} (h : Spells cs v) :
    ∃ c more, cs = c :: more ∧ isBlank c = false ∧ c ≠ ']' := by
  cases h with
  | number h =>
    obtain ⟨c, more, hcs, hc⟩ := h.exists_eq_cons
    exact ⟨c, more, hcs, by simp [isBlank, start_number_ne hc],
      start_number_ne hc (by decide) (by decide)⟩
  | nullWord | trueWord | falseWord | string | emptyArray | array | emptyObject | object =>
    exact ⟨_, _, rfl, by decide, by decide⟩

/-- Blanks before a text for a value are followed by it. -/
theorem Spells.skipBlanks_append {gap cs : List Char} {v : Json} (h : Spells cs v)
    (hgap : IsGap gap) (rest : List Char) : skipBlanks (gap ++ (cs ++ rest)) = cs ++ rest := by
  obtain ⟨c, more, rfl, hc, -⟩ := h.exists_eq_cons
  rw [skipBlanks_gap_append hgap, List.cons_append, skipBlanks_cons hc]

/-- After blanks the items of an array start with a character that is no closing bracket. -/
theorem SpellsItems.exists_skipBlanks {cs : List Char} {items : List Json}
    (h : SpellsItems cs items) (rest : List Char) :
    ∃ c more, skipBlanks (cs ++ rest) = c :: more ∧ c ≠ ']' := by
  cases h with
  | last before value _ | more before value _ _ =>
    obtain ⟨c, more, hcs, -, hc⟩ := value.exists_eq_cons
    subst hcs
    rw [List.append_assoc, List.append_assoc, value.skipBlanks_append before]
    exact ⟨c, _, List.cons_append, hc⟩

/-- After blanks the members of an object start with a quote. -/
theorem SpellsMembers.exists_skipBlanks {cs : List Char} {members : List (Option String × Json)}
    (h : SpellsMembers cs members) (rest : List Char) :
    ∃ more, skipBlanks (cs ++ rest) = '"' :: more := by
  cases h with
  | last before | more before =>
    rw [List.append_assoc, skipBlanks_gap_append before, List.cons_append,
      skipBlanks_cons (by decide)]
    exact ⟨_, rfl⟩

mutual

/-- A value is read however it is written, if what follows cannot continue it. -/
theorem readValue_of_spells {cs : List Char} {v : Json} : Spells cs v → ∀ {bound : Nat}
    {rest : List Char}, EndsNumber rest → 2 * cs.length < bound →
    readValue bound (cs ++ rest) = some (v, rest)
  | .nullWord, bound + 1, rest, _, _ => rfl
  | .trueWord, bound + 1, rest, _, _ => rfl
  | .falseWord, bound + 1, rest, _, _ => rfl
  | .number h, bound + 1, rest, hrest, _ => by
    have hread := Number.read_of_spells h hrest
    obtain ⟨c, more, rfl, hc⟩ := h.exists_eq_cons
    rw [List.cons_append] at hread ⊢
    rw [readValue_number hc, hread]
    rfl
  | .string h, bound + 1, rest, _, _ => by
    rw [List.cons_append, List.append_assoc, readValue_quote, List.singleton_append,
      Quoted.readPieces_of_spells h]
    rfl
  | .emptyArray hgap, bound + 1, rest, _, _ => by
    rw [List.cons_append, List.append_assoc]
    exact readValue_bracket_closed (skipBlanks_gap_append hgap _)
  | .array h, bound + 1, rest, _, hbound => by
    simp only [List.length_cons, List.length_append] at hbound
    obtain ⟨c, more, hskip, hc⟩ := h.exists_skipBlanks (']' :: rest)
    rw [List.cons_append, List.append_assoc, List.singleton_append, readValue_bracket hskip hc,
      readItems_of_spells h (by omega)]
    rfl
  | .emptyObject hgap, bound + 1, rest, _, _ => by
    rw [List.cons_append, List.append_assoc]
    exact readValue_brace_closed (skipBlanks_gap_append hgap _)
  | .object h, bound + 1, rest, _, hbound => by
    simp only [List.length_cons, List.length_append] at hbound
    obtain ⟨more, hskip⟩ := h.exists_skipBlanks ('\x7d' :: rest)
    rw [List.cons_append, List.append_assoc, List.singleton_append,
      readValue_brace hskip (by decide), readMembers_of_spells h (by omega)]
    rfl

/-- Items are read however they are written, up to the closing bracket. -/
theorem readItems_of_spells {cs : List Char} {items : List Json} : SpellsItems cs items →
    ∀ {bound : Nat} {rest : List Char}, 2 * cs.length + 1 < bound →
    readItems bound (cs ++ ']' :: rest) = some (items, rest)
  | .last before value after, bound + 1, rest, hbound => by
    simp only [List.length_append] at hbound
    have hends := after.endsNumber_append (endsNumber_cons (c := ']') (by decide) rest)
    have hread := (readValue_gap_append before bound _).trans
      (readValue_of_spells value hends (by omega))
    simp only [List.append_assoc]
    exact readItems_bracket hread (skipBlanks_gap_append after _)
  | .more before value after others, bound + 1, rest, hbound => by
    simp only [List.length_append, List.length_cons] at hbound
    have hends := fun tail => after.endsNumber_append (endsNumber_cons (c := ',') (by decide) tail)
    have hread := fun tail => (readValue_gap_append before bound _).trans
      (readValue_of_spells value (hends tail) (by omega))
    simp only [List.append_assoc, List.cons_append]
    rw [readItems_comma (hread _) (skipBlanks_gap_append after _),
      readItems_of_spells others (by omega)]
    rfl

/-- Members are read however they are written, up to the closing brace. -/
theorem readMembers_of_spells {cs : List Char} {members : List (Option String × Json)} :
    SpellsMembers cs members → ∀ {bound : Nat} {rest : List Char}, 2 * cs.length + 1 < bound →
    readMembers bound (cs ++ '\x7d' :: rest) = some (members, rest)
  | .last before named colon between held after, bound + 1, rest, hbound => by
    simp only [List.length_append, List.length_cons] at hbound
    have hends := after.endsNumber_append (endsNumber_cons (c := '\x7d') (by decide) rest)
    have hread := (readValue_gap_append between bound _).trans
      (readValue_of_spells held hends (by omega))
    simp only [List.append_assoc, List.cons_append]
    exact readMembers_brace (skipBlanks_gap_append before _) (Quoted.readPieces_of_spells named _)
      (skipBlanks_gap_append colon _) hread (skipBlanks_gap_append after _)
  | .more before named colon between held after others, bound + 1, rest, hbound => by
    simp only [List.length_append, List.length_cons] at hbound
    have hends := fun tail => after.endsNumber_append (endsNumber_cons (c := ',') (by decide) tail)
    have hread := fun tail => (readValue_gap_append between bound _).trans
      (readValue_of_spells held (hends tail) (by omega))
    simp only [List.append_assoc, List.cons_append]
    rw [readMembers_comma (skipBlanks_gap_append before _) (Quoted.readPieces_of_spells named _)
      (skipBlanks_gap_append colon _) (hread _) (skipBlanks_gap_append after _),
      readMembers_of_spells others (by omega)]
    rfl

end

/-- Whatever is read of a value, of items or of members with this many calls stands in front,
written as the grammar says. -/
structure ReadsGrammar (bound : Nat) : Prop where
  value : ∀ {cs rest : List Char} {v : Json}, readValue bound cs = some (v, rest) →
    ∃ gap t, IsGap gap ∧ Spells t v ∧ cs = gap ++ (t ++ rest)
  items : ∀ {cs rest : List Char} {items : List Json}, readItems bound cs = some (items, rest) →
    ∃ t, SpellsItems t items ∧ cs = t ++ ']' :: rest
  members : ∀ {cs rest : List Char} {members : List (Option String × Json)},
    readMembers bound cs = some (members, rest) →
    ∃ t, SpellsMembers t members ∧ cs = t ++ '\x7d' :: rest

section Soundness

variable {bound : Nat} {cs rest : List Char}

/-- A value that is read stands after blanks, if that holds of its items and its members. -/
theorem ReadsGrammar.of_readValue (ih : ReadsGrammar bound) {v : Json}
    (h : readValue (bound + 1) cs = some (v, rest)) :
    ∃ gap t, IsGap gap ∧ Spells t v ∧ cs = gap ++ (t ++ rest) := by
  obtain ⟨gap, hgap, hcs⟩ := exists_gap_append_skipBlanks cs
  suffices hspells : ∃ t, Spells t v ∧ skipBlanks cs = t ++ rest by
    obtain ⟨t, ht, hskip⟩ := hspells
    exact ⟨gap, t, hgap, ht, by rw [← hskip, ← hcs]⟩
  rw [readValue] at h
  split at h
  · next heq =>
    obtain ⟨rfl, rfl⟩ := Prod.mk.inj (Option.some.inj h)
    exact ⟨_, .nullWord, heq⟩
  · next heq =>
    obtain ⟨rfl, rfl⟩ := Prod.mk.inj (Option.some.inj h)
    exact ⟨_, .trueWord, heq⟩
  · next heq =>
    obtain ⟨rfl, rfl⟩ := Prod.mk.inj (Option.some.inj h)
    exact ⟨_, .falseWord, heq⟩
  · next heq =>
    obtain ⟨⟨pieces, tail⟩, hread, hv⟩ := Option.map_eq_some_iff.mp h
    obtain ⟨rfl, rfl⟩ := Prod.mk.inj hv
    obtain ⟨t, rfl, ht⟩ := Quoted.of_readPieces hread
    exact ⟨_, .string ht, by simp [heq]⟩
  · next inner heq =>
    obtain ⟨gap, hgap, hinner⟩ := exists_gap_append_skipBlanks inner
    split at h
    · next hclosed =>
      obtain ⟨rfl, rfl⟩ := Prod.mk.inj (Option.some.inj h)
      exact ⟨_, .emptyArray hgap, by rw [heq, hinner, hclosed]; simp⟩
    · rw [readItems_skipBlanks] at h
      obtain ⟨⟨items, tail⟩, hread, hv⟩ := Option.map_eq_some_iff.mp h
      obtain ⟨rfl, rfl⟩ := Prod.mk.inj hv
      obtain ⟨t, ht, rfl⟩ := ih.items hread
      exact ⟨_, .array ht, by simp [heq]⟩
  · next inner heq =>
    obtain ⟨gap, hgap, hinner⟩ := exists_gap_append_skipBlanks inner
    split at h
    · next hclosed =>
      obtain ⟨rfl, rfl⟩ := Prod.mk.inj (Option.some.inj h)
      exact ⟨_, .emptyObject hgap, by rw [heq, hinner, hclosed]; simp⟩
    · rw [readMembers_skipBlanks] at h
      obtain ⟨⟨members, tail⟩, hread, hv⟩ := Option.map_eq_some_iff.mp h
      obtain ⟨rfl, rfl⟩ := Prod.mk.inj hv
      obtain ⟨t, ht, rfl⟩ := ih.members hread
      exact ⟨_, .object ht, by simp [heq]⟩
  · obtain ⟨⟨n, tail⟩, hread, hv⟩ := Option.map_eq_some_iff.mp h
    obtain ⟨rfl, rfl⟩ := Prod.mk.inj hv
    obtain ⟨t, ht, hspelled⟩ := Number.of_read hread
    exact ⟨t, .number hspelled, ht⟩

/-- Items that are read stand before the closing bracket, if that holds of each with fewer calls. -/
theorem ReadsGrammar.of_readItems (ih : ReadsGrammar bound) {items : List Json}
    (h : readItems (bound + 1) cs = some (items, rest)) :
    ∃ t, SpellsItems t items ∧ cs = t ++ ']' :: rest := by
  rw [readItems] at h
  split at h
  · simp at h
  · next item left hitem =>
    obtain ⟨front, t, hfront, ht, rfl⟩ := ih.value hitem
    obtain ⟨back, hback, hleft⟩ := exists_gap_append_skipBlanks left
    split at h
    · next hcomma =>
      obtain ⟨⟨others, tail⟩, hread, heq⟩ := Option.map_eq_some_iff.mp h
      obtain ⟨rfl, rfl⟩ := Prod.mk.inj heq
      obtain ⟨more, hmore, rfl⟩ := ih.items hread
      exact ⟨_, .more hfront ht hback hmore, by rw [hleft, hcomma]; simp⟩
    · next hbracket =>
      obtain ⟨rfl, rfl⟩ := Prod.mk.inj (Option.some.inj h)
      exact ⟨_, .last hfront ht hback, by rw [hleft, hbracket]; simp⟩
    · simp at h

/-- Members that are read stand before the closing brace, if that holds of each with fewer calls. -/
theorem ReadsGrammar.of_readMembers (ih : ReadsGrammar bound)
    {members : List (Option String × Json)}
    (h : readMembers (bound + 1) cs = some (members, rest)) :
    ∃ t, SpellsMembers t members ∧ cs = t ++ '\x7d' :: rest := by
  obtain ⟨front, hfront, hcs⟩ := exists_gap_append_skipBlanks cs
  rw [readMembers] at h
  split at h
  case h_2 => simp at h
  next hquote =>
  split at h
  · simp at h
  next pieces afterName hname =>
  obtain ⟨name, rfl, hnamed⟩ := Quoted.of_readPieces hname
  obtain ⟨gap, hgap, hafterName⟩ := exists_gap_append_skipBlanks afterName
  split at h
  case h_2 => simp at h
  next hcolon =>
  split at h
  · simp at h
  next value left hvalue =>
  obtain ⟨mid, t, hmid, ht, rfl⟩ := ih.value hvalue
  obtain ⟨back, hback, hleft⟩ := exists_gap_append_skipBlanks left
  split at h
  · next hcomma =>
    obtain ⟨⟨others, tail⟩, hread, heq⟩ := Option.map_eq_some_iff.mp h
    obtain ⟨rfl, rfl⟩ := Prod.mk.inj heq
    obtain ⟨more, hmore, rfl⟩ := ih.members hread
    refine ⟨_, .more hfront hnamed hgap hmid ht hback hmore, ?_⟩
    rw [hcs, hquote, hafterName, hcolon, hleft, hcomma]
    simp
  · next hbrace =>
    obtain ⟨rfl, rfl⟩ := Prod.mk.inj (Option.some.inj h)
    refine ⟨_, .last hfront hnamed hgap hmid ht hback, ?_⟩
    rw [hcs, hquote, hafterName, hcolon, hleft, hbrace]
    simp
  · simp at h

/-- Whatever is read stands in front, with any number of calls. -/
theorem readsGrammar (bound : Nat) : ReadsGrammar bound := by
  induction bound with
  | zero =>
    exact ⟨fun h => by simp [readValue] at h, fun h => by simp [readItems] at h,
      fun h => by simp [readMembers] at h⟩
  | succ bound ih => exact ⟨ih.of_readValue, ih.of_readItems, ih.of_readMembers⟩

end Soundness

/-- Reading a text gives a value exactly if the text is a way to write it. -/
theorem parse?_eq_some_iff {cs : List Char} {v : Json} : parse? cs = some v ↔ IsText cs v := by
  constructor
  · intro h
    unfold parse? at h
    split at h
    · simp at h
    · next value rest hread =>
      obtain ⟨front, t, hfront, ht, hcs⟩ := (readsGrammar _).value hread
      obtain ⟨back, hback, hrest⟩ := exists_gap_append_skipBlanks rest
      split at h
      · next hempty =>
        obtain rfl := Option.some.inj h
        rw [List.isEmpty_iff.mp hempty, List.append_nil] at hrest
        exact ⟨front, t, back, hfront, ht, hback, by rw [hcs, hrest]⟩
      · simp at h
  · rintro ⟨front, t, back, hfront, ht, hback, rfl⟩
    have hends : EndsNumber back := by
      simpa using hback.endsNumber_append (show EndsNumber [] from nofun)
    have hblank : skipBlanks back = [] := by
      simpa [skipBlanks] using skipBlanks_gap_append hback []
    have hbound : 2 * t.length < 2 * (front ++ (t ++ back)).length + 2 := by
      simp only [List.length_append]
      omega
    rw [parse?, readValue_gap_append hfront, readValue_of_spells ht hends hbound]
    simp [hblank]

end Marginalia.Json
