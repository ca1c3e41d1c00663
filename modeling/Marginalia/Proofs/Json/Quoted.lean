import Marginalia.Json.Quoted
import Mathlib.Tactic.SplitIfs

/-!
# Strings that are written and read back

Each character is written so that reading takes exactly what was written for it and finds one
piece: the character itself, or the unit of UTF-16 of a control character that has no escape of
its own. The pieces of a written string therefore have its characters as their content, whatever
characters those are.
-/

namespace Marginalia.Json.Quoted

/-- Whether a character is written as a unit of UTF-16. -/
def isWrittenAsUnit (c : Char) : Bool :=
  isControl c && !(['\x08', '\x0c', '\n', '\r', '\t'].contains c)

/-- The piece that reading finds for a written character. -/
def pieceOf (c : Char) : Piece := if isWrittenAsUnit c then .unit c.toNat else .char c

/-- A character is written as an escape of its own, as a unit, or as it is. -/
theorem writeChar_cases (c : Char) :
    (∃ e, escaped? e = some c ∧ writeChar c = ['\\', e] ∧ pieceOf c = .char c)
    ∨ (c.toNat < 32 ∧ pieceOf c = .unit c.toNat
      ∧ writeChar c = ['\\', 'u', '0', '0', hexDigit (c.toNat / 16), hexDigit (c.toNat % 16)])
    ∨ (c ≠ '"' ∧ c ≠ '\\' ∧ isControl c = false ∧ writeChar c = [c] ∧ pieceOf c = .char c) := by
  unfold writeChar
  split_ifs with hquote hslash hback hfeed hline hreturn htab hcontrol
  · exact Or.inl ⟨'"', by subst hquote; decide⟩
  · exact Or.inl ⟨'\\', by subst hslash; decide⟩
  · exact Or.inl ⟨'b', by subst hback; decide⟩
  · exact Or.inl ⟨'f', by subst hfeed; decide⟩
  · exact Or.inl ⟨'n', by subst hline; decide⟩
  · exact Or.inl ⟨'r', by subst hreturn; decide⟩
  · exact Or.inl ⟨'t', by subst htab; decide⟩
  · have hunit : isWrittenAsUnit c = true := by
      simp [isWrittenAsUnit, hcontrol, hback, hfeed, hline, hreturn, htab]
    exact Or.inr (Or.inl ⟨by simpa [isControl] using hcontrol, by simp [pieceOf, hunit], rfl⟩)
  · have hplain : isWrittenAsUnit c = false := by simp [isWrittenAsUnit, hcontrol]
    exact Or.inr (Or.inr ⟨hquote, hslash, by simpa using hcontrol, rfl, by simp [pieceOf, hplain]⟩)

/-- The two hexadecimal digits of a number below 32 have its value after two zeros. -/
theorem unitValue?_hexDigit {n : Nat} (hn : n < 32) :
    unitValue? '0' '0' (hexDigit (n / 16)) (hexDigit (n % 16)) = some n := by
  revert n
  decide

/-- An escape of one character is read as what it stands for. -/
theorem readPieces_escape {e c : Char} {rest : List Char} (he : escaped? e = some c) :
    readPieces ('\\' :: e :: rest) = (readPieces rest).map fun (pieces, rest) =>
      (.char c :: pieces, rest) := by
  have hunit : e ≠ 'u' := by
    rintro rfl
    cases he
  rw [readPieces.eq_def]
  split
  · next heq => cases heq
  · next heq => cases heq
  · next heq => exact absurd (List.cons.inj (List.cons.inj heq).2).1 hunit
  · next heq =>
    cases heq
    simp only [he]
    cases readPieces rest <;> rfl
  · next hne heq =>
    cases heq
    exact absurd rfl (hne e rest rfl)

/-- A character that is no control character, no quote and no backslash stands for itself. -/
theorem readPieces_plain {c : Char} {rest : List Char} (hquote : c ≠ '"') (hslash : c ≠ '\\')
    (hcontrol : isControl c = false) :
    readPieces (c :: rest) = (readPieces rest).map fun (pieces, rest) =>
      (.char c :: pieces, rest) := by
  rw [readPieces.eq_def]
  split
  · next heq => cases heq
  · next heq => exact absurd (List.cons.inj heq).1 hquote
  · next heq => exact absurd (List.cons.inj heq).1 hslash
  · next heq => exact absurd (List.cons.inj heq).1 hslash
  · next heq =>
    cases heq
    rw [if_neg (by simp [hcontrol])]
    cases readPieces rest <;> rfl

/-- The text between the quotes of a string is a way to write its pieces: a character as it is, an
escape of one character, or an escape of four hexadecimal digits. -/
inductive Spells : List Char → List Piece → Prop where
  | nil : Spells [] []
  | unit {a b c d : Char} {value : Nat} {cs : List Char} {pieces : List Piece}
      (digits : unitValue? a b c d = some value) (rest : Spells cs pieces) :
      Spells ('\\' :: 'u' :: a :: b :: c :: d :: cs) (.unit value :: pieces)
  | escape {e c : Char} {cs : List Char} {pieces : List Piece} (known : escaped? e = some c)
      (rest : Spells cs pieces) : Spells ('\\' :: e :: cs) (.char c :: pieces)
  | plain {c : Char} {cs : List Char} {pieces : List Piece} (quote : c ≠ '"') (slash : c ≠ '\\')
      (control : isControl c = false) (rest : Spells cs pieces) :
      Spells (c :: cs) (.char c :: pieces)

/-- A string is read up to its closing quote, however it is written. -/
theorem readPieces_of_spells {cs : List Char} {pieces : List Piece} (h : Spells cs pieces)
    (rest : List Char) : readPieces (cs ++ '"' :: rest) = some (pieces, rest) := by
  induction h with
  | nil => simp [readPieces]
  | unit digits _ ih => simp [readPieces, digits, ih]
  | escape known _ ih =>
    rw [List.cons_append, List.cons_append, readPieces_escape known, ih]
    rfl
  | plain quote slash control _ ih =>
    rw [List.cons_append, readPieces_plain quote slash control, ih]
    rfl

/-- What is read as a string stands in front of a quote. -/
theorem of_readPieces {cs rest : List Char} {pieces : List Piece}
    (h : readPieces cs = some (pieces, rest)) : ∃ t, cs = t ++ '"' :: rest ∧ Spells t pieces := by
  fun_induction readPieces cs generalizing pieces rest with
  | case1 => simp at h
  | case2 tail =>
    obtain ⟨rfl, rfl⟩ := Prod.mk.inj (Option.some.inj h)
    exact ⟨[], rfl, .nil⟩
  | case3 a b c d tail ih =>
    obtain ⟨value, hvalue, h⟩ := Option.bind_eq_some_iff.mp h
    obtain ⟨⟨more, left⟩, hmore, h⟩ := Option.bind_eq_some_iff.mp h
    obtain ⟨rfl, rfl⟩ := Prod.mk.inj (Option.some.inj h)
    obtain ⟨t, rfl, spelled⟩ := ih hmore
    exact ⟨_, rfl, .unit hvalue spelled⟩
  | case4 e tail hne ih =>
    obtain ⟨c, hc, h⟩ := Option.bind_eq_some_iff.mp h
    obtain ⟨⟨more, left⟩, hmore, h⟩ := Option.bind_eq_some_iff.mp h
    obtain ⟨rfl, rfl⟩ := Prod.mk.inj (Option.some.inj h)
    obtain ⟨t, rfl, spelled⟩ := ih hmore
    exact ⟨_, rfl, .escape hc spelled⟩
  | case5 c tail hquote hunit hescape hcontrol => simp at h
  | case6 c tail hquote hunit hescape hcontrol ih =>
    obtain ⟨⟨more, left⟩, hmore, h⟩ := Option.bind_eq_some_iff.mp h
    obtain ⟨rfl, rfl⟩ := Prod.mk.inj (Option.some.inj h)
    have hslash : c ≠ '\\' := by
      rintro rfl
      cases tail with
      | nil => simp [readPieces] at hmore
      | cons e tail => exact hescape e tail rfl rfl
    obtain ⟨t, rfl, spelled⟩ := ih hmore
    exact ⟨_, rfl, .plain hquote hslash (by simpa using hcontrol) spelled⟩

/-- What is written for characters is a way to write their pieces. -/
theorem spells_flatMap_writeChar (cs : List Char) :
    Spells (cs.flatMap writeChar) (cs.map pieceOf) := by
  induction cs with
  | nil => exact .nil
  | cons c cs ih =>
    rw [List.flatMap_cons, List.map_cons]
    obtain ⟨e, he, hwrite, hpiece⟩ | ⟨hlow, hpiece, hwrite⟩
      | ⟨hquote, hslash, hcontrol, hwrite, hpiece⟩ := writeChar_cases c
    · rw [hwrite, hpiece]
      exact .escape he ih
    · rw [hwrite, hpiece]
      exact .unit (unitValue?_hexDigit hlow) ih
    · rw [hwrite, hpiece]
      exact .plain hquote hslash hcontrol ih

/-- A unit that is no half of a pair stands for its character. -/
theorem content?_unit {value : Nat} {rest : List Piece} (hhigh : isHighHalf value = false)
    (hlow : isLowHalf value = false) :
    content? (.unit value :: rest) = (content? rest).map (Char.ofNat value :: ·) := by
  rw [content?.eq_def]
  simp [hhigh, hlow]

/-- The pieces of a written string have its characters as content. -/
theorem content?_map_pieceOf (cs : List Char) : content? (cs.map pieceOf) = some cs := by
  induction cs with
  | nil => rfl
  | cons c cs ih =>
    obtain ⟨_, _, _, hpiece⟩ | ⟨hlow, hpiece, _⟩ | ⟨_, _, _, _, hpiece⟩ := writeChar_cases c
    · simp [hpiece, content?, ih]
    · have hhigh : isHighHalf c.toNat = false := by simp [isHighHalf]; omega
      have hlowHalf : isLowHalf c.toNat = false := by simp [isLowHalf]; omega
      simp [hpiece, content?_unit hhigh hlowHalf, ih]
    · simp [hpiece, content?, ih]

end Marginalia.Json.Quoted
