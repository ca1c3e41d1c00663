import Marginalia.Text.Basic

/-!
# Characters and bytes

An offset in bytes of the UTF-8 form has an offset in characters exactly if it lies on a boundary
between characters, and then only one: so many characters that their UTF-8 form ends there. What
lies between two such offsets in bytes is the UTF-8 form of what lies between them in characters.
-/

namespace Marginalia.Text

/-- The bytes of the UTF-8 form. -/
def utf8 (t : Text) : ByteArray := (String.ofList t).toByteArray

variable {t : Text} {b n : Nat}

/-- The bytes of one text behind another are those of the one and then those of the other. -/
theorem utf8_append (t u : Text) : utf8 (t ++ u) = utf8 t ++ utf8 u := by
  simp only [utf8, String.toByteArray_ofList, List.utf8Encode_append]

/-- A character adds its own bytes. -/
theorem byteLength_cons (c : Char) (t : Text) :
    byteLength (c :: t) = c.utf8Size + byteLength t := rfl

/-- The length in bytes is that of the UTF-8 form. -/
theorem size_utf8 (t : Text) : (utf8 t).size = byteLength t := by
  rw [utf8, String.toByteArray_ofList]
  induction t with
  | nil => rfl
  | cons c rest ih =>
    rw [List.utf8Encode_cons, ByteArray.size_append, ih, byteLength_cons,
      List.utf8Encode_singleton, List.size_toByteArray, String.length_utf8EncodeChar]

/-- The offset in characters for an offset in bytes: so many characters have so many bytes. -/
theorem charOffset?_eq_some_iff :
    charOffset? t b = some n ↔ n ≤ t.length ∧ byteLength (t.take n) = b := by
  fun_induction charOffset? t b generalizing n with
  | case1 t =>
    cases n with
    | zero => simp [byteLength]
    | succ n =>
      -- a character has at least one byte
      cases t with
      | nil => simp
      | cons c rest =>
        have hpos := c.utf8Size_pos
        simp [byteLength_cons]
        omega
  | case2 b => simp [byteLength]
  | case3 c rest b hfits ih =>
    cases n with
    | zero => simp [byteLength]
    | succ n =>
      rw [List.take_succ_cons, byteLength_cons, List.length_cons, Nat.succ_le_succ_iff,
        Option.map_eq_some_iff]
      simp only [Nat.add_right_cancel_iff, exists_eq_right, ih]
      omega
  | case4 c rest b hinside =>
    cases n with
    | zero => simp [byteLength]
    | succ n =>
      rw [List.take_succ_cons, byteLength_cons]
      simp
      omega

/-- An offset in bytes has an offset in characters if it lies on a boundary between characters, and
not otherwise. -/
theorem exists_charOffset?_iff :
    (∃ n, charOffset? t b = some n) ↔ String.Pos.Raw.IsValid (String.ofList t) ⟨b⟩ := by
  have hsize (u : Text) : (String.ofList u).utf8ByteSize = byteLength u := size_utf8 u
  rw [String.Pos.Raw.isValid_ofList]
  simp only [charOffset?_eq_some_iff, hsize]
  constructor
  · rintro ⟨n, -, hbytes⟩
    exact ⟨n, hbytes.symm⟩
  · rintro ⟨n, hbytes⟩
    refine ⟨min n t.length, Nat.min_le_right _ _, ?_⟩
    rw [hbytes, ← List.take_eq_take_min]

/-- The characters up to an offset are those up to an earlier one and those between the two. -/
theorem take_append_extract {m : Nat} (h : n ≤ m) : t.take n ++ t.extract n m = t.take m := by
  rw [List.extract_eq_take_drop, ← List.drop_take]
  have hsplit := List.take_append_drop n (t.take m)
  rwa [List.take_take, Nat.min_eq_left h] at hsplit

/-- Between two boundaries are the bytes of the characters between them. -/
theorem utf8_extract {m c : Nat} (ordered : n ≤ m) (hstart : byteLength (t.take n) = b)
    (hstop : byteLength (t.take m) = c) :
    utf8 (t.extract n m) = (utf8 t).extract b c := by
  rw [← size_utf8] at hstart hstop
  have hfront : (utf8 t).extract 0 c = utf8 (t.take m) := by
    rw [← ByteArray.extract_append_eq_left hstop.symm (b := utf8 (t.drop m)), ← utf8_append,
      List.take_append_drop]
  have hbetween : utf8 (t.extract n m) = (utf8 (t.take m)).extract b c := by
    rw [← take_append_extract ordered, utf8_append]
    refine (ByteArray.extract_append_eq_right hstart.symm ?_).symm
    rw [← hstop, ← take_append_extract ordered, utf8_append, ByteArray.size_append]
  rw [hbetween, ← hfront, ByteArray.extract_extract, Nat.zero_add, Nat.zero_add, Nat.min_self]

/-- Of two boundaries the one at fewer bytes is at fewer characters. -/
theorem le_of_byteLength_take_le {m : Nat} (hm : m ≤ t.length) (hn : n ≤ t.length)
    (h : byteLength (t.take n) ≤ byteLength (t.take m)) : n ≤ m := by
  refine Nat.le_of_not_lt fun hlt => ?_
  have hmore : byteLength (t.take m) ≤ byteLength (t.take n) := by
    rw [← size_utf8, ← size_utf8, ← take_append_extract (Nat.le_of_lt hlt), utf8_append,
      ByteArray.size_append]
    exact Nat.le_add_right _ _
  -- with equally many bytes the two are the offset of one boundary
  have hboth := charOffset?_eq_some_iff.mpr ⟨hm, Nat.le_antisymm hmore h⟩
  rw [charOffset?_eq_some_iff.mpr ⟨hn, rfl⟩] at hboth
  exact absurd (Option.some.inj hboth) (Nat.ne_of_gt hlt)

end Marginalia.Text
