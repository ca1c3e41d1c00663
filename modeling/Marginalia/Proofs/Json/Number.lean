import Marginalia.Json.Number
import Mathlib.Data.List.TakeDrop
import Mathlib.Data.Nat.Digits.Defs

/-!
# Numbers that are written and read back

A number of the grammar has digits before the point with no idle zero in front, and digits after
the point and in the exponent if it has those parts. Written and followed by anything that cannot
continue it, such a number is read back as it was. Offsets are written in decimal, which gives
numbers of the grammar, and within a word they are read back exactly.
-/

namespace Marginalia.Json.Number

/-- One or more digits, and nothing else. -/
def IsDigits (cs : List Char) : Prop := cs ≠ [] ∧ ∀ c ∈ cs, c.isDigit = true

/-- The number is one of the grammar. -/
structure WellFormed (n : Number) : Prop where
  whole : IsDigits n.whole
  zero_alone : ∀ rest, n.whole = '0' :: rest → rest = []
  fraction : ∀ digits ∈ n.fraction, IsDigits digits
  exponent : ∀ power ∈ n.exponent, IsDigits power.2

/-- The text does not go on with a digit. -/
def EndsDigits (rest : List Char) : Prop := ∀ c ∈ rest.head?, c.isDigit = false

/-- The text does not go on with anything that belongs to a number. -/
def EndsNumber (rest : List Char) : Prop :=
  ∀ c ∈ rest.head?, c.isDigit = false ∧ c ≠ '.' ∧ c ≠ 'e' ∧ c ≠ 'E'

/-- What ends a number ends its digits. -/
theorem EndsNumber.endsDigits {rest : List Char} (h : EndsNumber rest) : EndsDigits rest :=
  fun c hc => (h c hc).1

/-- The digits in front are read up to where they end. -/
theorem readDigits_append {digits rest : List Char} (hdigits : IsDigits digits)
    (hrest : EndsDigits rest) : readDigits (digits ++ rest) = some (digits, rest) := by
  have hstop : rest.takeWhile (·.isDigit) = [] ∧ rest.dropWhile (·.isDigit) = rest := by
    cases rest with
    | nil => simp
    | cons c more =>
      have hc : c.isDigit = false := hrest c (by simp)
      simp [hc]
  have hspan : (digits ++ rest).span (·.isDigit) = (digits, rest) := by
    rw [List.span_eq_takeWhile_dropWhile, List.takeWhile_append_of_pos hdigits.2,
      List.dropWhile_append_of_pos hdigits.2, hstop.1, hstop.2, List.append_nil]
  unfold readDigits
  rw [hspan]
  cases digits with
  | nil => exact absurd rfl hdigits.1
  | cons c more => rfl

/-- The digits before the point are read, whatever ends them. -/
theorem readWhole_append {n : Number} {rest : List Char} (hn : n.WellFormed)
    (hrest : EndsDigits rest) : readWhole (n.whole ++ rest) = some (n.whole, rest) := by
  unfold readWhole
  rw [readDigits_append hn.whole hrest]
  split
  · next c more tail heq =>
    obtain ⟨hwhole, -⟩ := Prod.mk.inj (Option.some.inj heq)
    exact absurd (hn.zero_alone _ hwhole) (by simp)
  · rfl

/-- The point and the digits after it, as they are written. -/
def writeFraction : Option (List Char) → List Char
  | some digits => '.' :: digits
  | none => []

/-- The exponent as it is written. -/
def writeExponent : Option (Bool × List Char) → List Char
  | some (true, digits) => 'e' :: '-' :: digits
  | some (false, digits) => 'e' :: digits
  | none => []

/-- A number is written as its sign and its three parts. -/
theorem write_eq (n : Number) :
    n.write = (if n.negative then ['-'] else []) ++ n.whole ++ writeFraction n.fraction
      ++ writeExponent n.exponent := rfl

/-- The part after the point is read back. -/
theorem readFraction_append {fraction : Option (List Char)} {rest : List Char}
    (hfraction : ∀ digits ∈ fraction, IsDigits digits) (hrest : EndsDigits rest)
    (hpoint : ∀ c ∈ rest.head?, c ≠ '.') :
    readFraction (writeFraction fraction ++ rest) = some (fraction, rest) := by
  cases fraction with
  | none =>
    simp only [writeFraction, List.nil_append]
    unfold readFraction
    split
    · exact absurd rfl (hpoint '.' (by simp))
    · rfl
  | some digits =>
    simp [writeFraction, readFraction, readDigits_append (hfraction digits rfl) hrest]

/-- A power as it may be written: its sign if it has one, also a plus, and its digits. -/
inductive SpellsPower : List Char → Bool × List Char → Prop where
  | bare {digits : List Char} (h : IsDigits digits) : SpellsPower digits (false, digits)
  | plus {digits : List Char} (h : IsDigits digits) : SpellsPower ('+' :: digits) (false, digits)
  | minus {digits : List Char} (h : IsDigits digits) : SpellsPower ('-' :: digits) (true, digits)

/-- An exponent as it may be written, with its letter in either case. -/
inductive SpellsExponent : List Char → Option (Bool × List Char) → Prop where
  | none : SpellsExponent [] none
  | small {cs : List Char} {power : Bool × List Char} (h : SpellsPower cs power) :
      SpellsExponent ('e' :: cs) (some power)
  | capital {cs : List Char} {power : Bool × List Char} (h : SpellsPower cs power) :
      SpellsExponent ('E' :: cs) (some power)

/-- The text is a way to write the number: its sign, its digits and its exponent. -/
def Spells (cs : List Char) (n : Number) : Prop :=
  n.WellFormed ∧ ∃ exponent, SpellsExponent exponent n.exponent ∧
    cs = (if n.negative then ['-'] else []) ++ (n.whole ++ (writeFraction n.fraction ++ exponent))

/-- The digits of a power are digits. -/
theorem SpellsPower.isDigits {cs : List Char} {power : Bool × List Char}
    (h : SpellsPower cs power) : IsDigits power.2 := by
  cases h <;> assumption

/-- A number of the grammar can be written. -/
theorem WellFormed.spells_write {n : Number} (hn : n.WellFormed) : Spells n.write n := by
  refine ⟨hn, writeExponent n.exponent, ?_, ?_⟩
  · have hexponent := hn.exponent
    match hpower : n.exponent with
    | none => exact .none
    | some (true, digits) => exact .small (.minus (hexponent _ hpower))
    | some (false, digits) => exact .small (.bare (hexponent _ hpower))
  · simp [write_eq]

/-- A power is read as it is written. -/
theorem readPower_of_spells {cs rest : List Char} {power : Bool × List Char}
    (h : SpellsPower cs power) (hrest : EndsDigits rest) :
    readPower (cs ++ rest) = some (power, rest) := by
  cases h with
  | plus hdigits | minus hdigits => simp [readPower, readDigits_append hdigits hrest]
  | @bare digits hdigits =>
    have hread := readDigits_append hdigits hrest
    obtain ⟨c, more, rfl⟩ := List.exists_cons_of_ne_nil hdigits.1
    have hc : c.isDigit = true := hdigits.2 c (by simp)
    simp only [List.cons_append] at hread ⊢
    unfold readPower
    split
    · next heq => exact absurd ((List.cons.inj heq).1 ▸ hc) (by decide)
    · next heq => exact absurd ((List.cons.inj heq).1 ▸ hc) (by decide)
    · simp [hread]

/-- An exponent is read as it is written. -/
theorem readExponent_of_spells {cs rest : List Char} {exponent : Option (Bool × List Char)}
    (h : SpellsExponent cs exponent) (hrest : EndsNumber rest) :
    readExponent (cs ++ rest) = some (exponent, rest) := by
  cases h with
  | small hpower | capital hpower =>
    simp [readExponent, readPower_of_spells hpower hrest.endsDigits]
  | none =>
    rw [List.nil_append]
    unfold readExponent
    split
    · exact absurd rfl (hrest 'e' (by simp)).2.2.1
    · exact absurd rfl (hrest 'E' (by simp)).2.2.2
    · rfl

/-- An exponent and what ends a number end the digits after the point. -/
theorem SpellsExponent.head_append {cs rest : List Char} {exponent : Option (Bool × List Char)}
    (h : SpellsExponent cs exponent) (hrest : EndsNumber rest) :
    ∀ c ∈ (cs ++ rest).head?, c.isDigit = false ∧ c ≠ '.' := by
  cases h with
  | none => exact fun c hc => ⟨(hrest c hc).1, (hrest c hc).2.1⟩
  | small | capital => simp

/-- What follows the digits before the point ends them. -/
theorem endsDigits_writeFraction {fraction : Option (List Char)} {rest : List Char}
    (hrest : EndsDigits rest) : EndsDigits (writeFraction fraction ++ rest) := by
  cases fraction with
  | none => exact hrest
  | some digits => simp [writeFraction, EndsDigits]

/-- A number of the grammar is read back without its sign. -/
theorem readUnsigned_of_spells {n : Number} {exponent rest : List Char} (hn : n.WellFormed)
    (hexponent : SpellsExponent exponent n.exponent) (hrest : EndsNumber rest) :
    readUnsigned n.negative (n.whole ++ (writeFraction n.fraction ++ (exponent ++ rest)))
      = some (n, rest) := by
  have hdigits : EndsDigits (exponent ++ rest) :=
    fun c hc => (hexponent.head_append hrest c hc).1
  have hpoint : ∀ c ∈ (exponent ++ rest).head?, c ≠ '.' :=
    fun c hc => (hexponent.head_append hrest c hc).2
  simp [readUnsigned, readWhole_append hn (endsDigits_writeFraction hdigits),
    readFraction_append hn.fraction hdigits hpoint, readExponent_of_spells hexponent hrest]

/-- A number starts with a digit or a sign. -/
theorem Spells.exists_eq_cons {cs : List Char} {n : Number} (h : Spells cs n) :
    ∃ c more, cs = c :: more ∧ (c = '-' ∨ c.isDigit = true) := by
  obtain ⟨hn, exponent, -, rfl⟩ := h
  obtain ⟨c, more, hwhole⟩ := List.exists_cons_of_ne_nil hn.whole.1
  have hc : c.isDigit = true := hn.whole.2 c (by simp [hwhole])
  cases n.negative with
  | false => exact ⟨c, _, by simp [hwhole]; rfl, Or.inr hc⟩
  | true => exact ⟨'-', _, by simp; rfl, Or.inl rfl⟩

/-- A number is read however it is written, if what follows cannot continue it. -/
theorem read_of_spells {cs rest : List Char} {n : Number} (h : Spells cs n)
    (hrest : EndsNumber rest) : read (cs ++ rest) = some (n, rest) := by
  obtain ⟨hn, exponent, hexponent, rfl⟩ := h
  have hread := readUnsigned_of_spells hn hexponent hrest
  cases hsign : n.negative with
  | true => simpa [hsign, read] using hread
  | false =>
    obtain ⟨c, more, hwhole⟩ := List.exists_cons_of_ne_nil hn.whole.1
    have hc : c.isDigit = true := hn.whole.2 c (by simp [hwhole])
    simp only [Bool.false_eq_true, if_false, List.nil_append, List.append_assoc, hsign] at hread ⊢
    rw [hwhole, List.cons_append] at hread ⊢
    unfold read
    split
    · next heq => exact absurd ((List.cons.inj heq).1 ▸ hc) (by decide)
    · exact hread

/-- Digits that are read stand in front. -/
theorem of_readDigits {cs digits rest : List Char} (h : readDigits cs = some (digits, rest)) :
    cs = digits ++ rest ∧ IsDigits digits := by
  unfold readDigits at h
  rw [List.span_eq_takeWhile_dropWhile] at h
  split at h
  · simp at h
  · next found tail hne heq =>
    obtain ⟨rfl, rfl⟩ := Prod.mk.inj heq
    obtain ⟨rfl, rfl⟩ := Prod.mk.inj (Option.some.inj h)
    exact ⟨List.takeWhile_append_dropWhile.symm, hne,
      fun c hc => List.all_eq_true.mp List.all_takeWhile c hc⟩

/-- Digits before the point that are read have no idle zero in front. -/
theorem of_readWhole {cs digits rest : List Char} (h : readWhole cs = some (digits, rest)) :
    cs = digits ++ rest ∧ IsDigits digits ∧ ∀ more, digits = '0' :: more → more = [] := by
  unfold readWhole at h
  split at h
  · simp at h
  · next hidle =>
    obtain ⟨hcs, hdigits⟩ := of_readDigits h
    refine ⟨hcs, hdigits, fun more hmore => ?_⟩
    cases more with
    | nil => rfl
    | cons c tail => exact absurd (hmore ▸ h) (hidle c tail rest)

/-- What is read as the part after the point is written like that. -/
theorem of_readFraction {cs rest : List Char} {fraction : Option (List Char)}
    (h : readFraction cs = some (fraction, rest)) :
    cs = writeFraction fraction ++ rest ∧ ∀ digits ∈ fraction, IsDigits digits := by
  unfold readFraction at h
  split at h
  · obtain ⟨⟨digits, tail⟩, hread, heq⟩ := Option.map_eq_some_iff.mp h
    obtain ⟨rfl, rfl⟩ := Prod.mk.inj heq
    obtain ⟨rfl, hdigits⟩ := of_readDigits hread
    exact ⟨rfl, fun _ hmem => Option.some.inj hmem ▸ hdigits⟩
  · obtain ⟨rfl, rfl⟩ := Prod.mk.inj (Option.some.inj h)
    exact ⟨rfl, nofun⟩

/-- A power that is read stands in front. -/
theorem of_readPower {cs rest : List Char} {power : Bool × List Char}
    (h : readPower cs = some (power, rest)) : ∃ t, cs = t ++ rest ∧ SpellsPower t power := by
  unfold readPower at h
  split at h
  all_goals
    obtain ⟨⟨digits, tail⟩, hread, heq⟩ := Option.map_eq_some_iff.mp h
    obtain ⟨rfl, rfl⟩ := Prod.mk.inj heq
    obtain ⟨rfl, hdigits⟩ := of_readDigits hread
  · exact ⟨_, rfl, .minus hdigits⟩
  · exact ⟨_, rfl, .plus hdigits⟩
  · exact ⟨_, rfl, .bare hdigits⟩

/-- An exponent that is read stands in front. -/
theorem of_readExponent {cs rest : List Char} {exponent : Option (Bool × List Char)}
    (h : readExponent cs = some (exponent, rest)) :
    ∃ t, cs = t ++ rest ∧ SpellsExponent t exponent := by
  unfold readExponent at h
  split at h
  · obtain ⟨⟨power, tail⟩, hread, heq⟩ := Option.map_eq_some_iff.mp h
    obtain ⟨rfl, rfl⟩ := Prod.mk.inj heq
    obtain ⟨t, rfl, hpower⟩ := of_readPower hread
    exact ⟨_, rfl, .small hpower⟩
  · obtain ⟨⟨power, tail⟩, hread, heq⟩ := Option.map_eq_some_iff.mp h
    obtain ⟨rfl, rfl⟩ := Prod.mk.inj heq
    obtain ⟨t, rfl, hpower⟩ := of_readPower hread
    exact ⟨_, rfl, .capital hpower⟩
  · obtain ⟨rfl, rfl⟩ := Prod.mk.inj (Option.some.inj h)
    exact ⟨[], rfl, .none⟩

/-- A number without its sign that is read stands in front. -/
theorem of_readUnsigned {cs rest : List Char} {negative : Bool} {n : Number}
    (h : readUnsigned negative cs = some (n, rest)) : n.negative = negative ∧ n.WellFormed ∧
      ∃ exponent, SpellsExponent exponent n.exponent ∧
        cs = n.whole ++ (writeFraction n.fraction ++ exponent) ++ rest := by
  unfold readUnsigned at h
  obtain ⟨⟨whole, afterWhole⟩, hwhole, h⟩ := Option.bind_eq_some_iff.mp h
  obtain ⟨⟨fraction, afterFraction⟩, hfraction, h⟩ := Option.bind_eq_some_iff.mp h
  obtain ⟨⟨exponent, tail⟩, hexponent, h⟩ := Option.bind_eq_some_iff.mp h
  obtain ⟨rfl, rfl⟩ := Prod.mk.inj (Option.some.inj h)
  obtain ⟨rfl, hdigits, hzero⟩ := of_readWhole hwhole
  obtain ⟨rfl, hpoint⟩ := of_readFraction hfraction
  obtain ⟨t, rfl, hpower⟩ := of_readExponent hexponent
  refine ⟨rfl, ⟨hdigits, hzero, hpoint, fun power hmem => ?_⟩, t, hpower, by simp⟩
  cases hpower with
  | none => cases hmem
  | small hspelled | capital hspelled => exact Option.some.inj hmem ▸ hspelled.isDigits

/-- A number that is read stands in front. -/
theorem of_read {cs rest : List Char} {n : Number} (h : read cs = some (n, rest)) :
    ∃ t, cs = t ++ rest ∧ Spells t n := by
  unfold read at h
  split at h
  · obtain ⟨hsign, hn, exponent, hexponent, rfl⟩ := of_readUnsigned h
    exact ⟨'-' :: (n.whole ++ (writeFraction n.fraction ++ exponent)), rfl, hn, exponent, hexponent,
      by simp [hsign]⟩
  · obtain ⟨hsign, hn, exponent, hexponent, rfl⟩ := of_readUnsigned h
    exact ⟨_, rfl, hn, exponent, hexponent, by simp [hsign]⟩

/-- A natural number in decimal starts with a zero only if it is zero. -/
theorem eq_nil_of_toDigits_eq_zero_cons {n : Nat} {rest : List Char}
    (h : Nat.toDigits 10 n = '0' :: rest) : rest = [] := by
  induction n using Nat.strong_induction_on generalizing rest with
  | _ n ih =>
    by_cases hn : n < 10
    · rw [Nat.toDigits_of_lt_base hn] at h
      exact (List.cons.inj h).2.symm
    · rw [Nat.toDigits_of_base_le (by decide) (by omega)] at h
      obtain ⟨c, more, hhigh⟩ :=
        List.exists_cons_of_ne_nil (Nat.toDigits_ne_nil (n := n / 10) (b := 10))
      rw [hhigh, List.cons_append] at h
      obtain ⟨rfl, hrest⟩ := List.cons.inj h
      have hnil := ih (n / 10) (by omega) hhigh
      -- A single zero in front would make `n` smaller than ten.
      have hvalue := Nat.ofDigitChars_ten_toDigits (n := n / 10)
      rw [hhigh, hnil] at hvalue
      have : n / 10 = 0 := hvalue.symm
      omega

/-- A natural number is written as a number of the grammar. -/
theorem wellFormed_ofNat (n : Nat) : (ofNat n).WellFormed where
  whole := ⟨Nat.toDigits_ne_nil,
    fun _ hc => Nat.isDigit_of_mem_toDigits (by decide) (by decide) hc⟩
  zero_alone _ h := eq_nil_of_toDigits_eq_zero_cons h
  fraction _ h := by simp [ofNat] at h
  exponent _ h := by simp [ofNat] at h

/-- The decimal digits of a natural number have its value. -/
@[simp] theorem digitsValue_toDigits (n : Nat) : digitsValue (Nat.toDigits 10 n) = n := by
  have h := Nat.ofDigitChars_ten_toDigits (n := n)
  rwa [Nat.ofDigitChars_eq_foldl] at h

/-- The number of an offset that fits a word has its value as a word. -/
theorem toWord?_ofNat {n : Nat} (hn : n ≤ greatestOffset) : (ofNat n).toWord? = some (n : Int) := by
  simp [toWord?, ofNat, isInteger, hn]

/-- An offset that fits a word is read back from its number. -/
theorem toOffset?_ofNat {n : Nat} (hn : n ≤ greatestOffset) : (ofNat n).toOffset? = some n := by
  simp [toOffset?, toWord?_ofNat hn, Int.toNat?]

end Marginalia.Json.Number
