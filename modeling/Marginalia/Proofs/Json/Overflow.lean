import Marginalia.Proofs.Json.Record
import Marginalia.Proofs.Json.Rounding

/-!
# Numbers that do not overflow

A number overflows by the way its value is computed, which is not exactly where the doubles end. Its
significand is the leading digits that fit a word, which never makes it greater, but both the
significand and the power of ten are rounded before they are multiplied, and the product is rounded
again. Main statements: a number that is at least two units in the last place below the greatest
double has a value, and so does any value of JSON with no greater numbers, all of whose strings have
content.
-/

namespace Marginalia.Json

namespace Number

/-- The magnitude of the number as it is written. -/
def magnitude (n : Number) : ℚ :=
  digitsValue (n.whole ++ n.fraction.getD [])
    * 10 ^ (powerValue n.exponent - ((n.fraction.getD []).length : ℤ))

/-- The greatest double. -/
def greatestDouble : ℚ := (2 ^ 53 - 1) * 2 ^ 971

/-- The greatest double, less two units in its last place. -/
def safeMagnitude : ℚ := (2 ^ 53 - 3) * 2 ^ 971

section Digits

variable {start : ℕ} {digits : List Char}

/-- Each digit that is appended makes a number ten times as great, or more. -/
theorem mul_pow_le_foldl (n : ℕ) (digits : List Char) :
    n * 10 ^ digits.length ≤ digits.foldl appendDigit n := by
  induction digits generalizing n with
  | nil => simp
  | cons c rest ih =>
    calc n * 10 ^ (rest.length + 1) = 10 * n * 10 ^ rest.length := by ring
      _ ≤ appendDigit n c * 10 ^ rest.length := by
          gcongr
          exact Nat.le_add_right _ _
      _ ≤ (c :: rest).foldl appendDigit n := ih _

/-- The significand is made up of the digits in front, it fits a word, and the first digit that is
left over would not fit with it. -/
theorem of_absorb_eq {significand : ℕ} {rest : List Char} (hstart : start ≤ greatestOffset)
    (h : absorb start digits = (significand, rest)) :
    ∃ taken, digits = taken ++ rest ∧ significand = taken.foldl appendDigit start
      ∧ significand ≤ greatestOffset
      ∧ ∀ c ∈ rest.head?, greatestOffset < appendDigit significand c := by
  fun_induction absorb start digits with
  | case1 start =>
    obtain ⟨rfl, rfl⟩ := Prod.mk.inj h
    exact ⟨[], rfl, rfl, hstart, nofun⟩
  | case2 start c digits hfits ih =>
    obtain ⟨taken, rfl, hsignificand, hsmall, hrest⟩ := ih hfits h
    exact ⟨c :: taken, rfl, hsignificand, hsmall, hrest⟩
  | case3 start c digits hlarge =>
    obtain ⟨rfl, rfl⟩ := Prod.mk.inj h
    exact ⟨[], rfl, rfl, hstart, by simpa using hlarge⟩

/-- With a zero for each digit that is left over, the significand is no greater than all digits. -/
theorem mul_pow_le_digitsValue {whole fraction leftOver ignored : List Char} {high significand : ℕ}
    (hwhole : absorb 0 whole = (high, leftOver))
    (hfraction : absorb high fraction = (significand, ignored)) :
    significand * 10 ^ (leftOver.length + ignored.length) ≤ digitsValue (whole ++ fraction) := by
  obtain ⟨front, rfl, hhigh, hfits, hlost⟩ := of_absorb_eq (Nat.zero_le _) hwhole
  obtain ⟨taken, rfl, hsignificand, hsmall, -⟩ := of_absorb_eq hfits hfraction
  have hvalue : digitsValue (front ++ leftOver ++ (taken ++ ignored))
      = (leftOver ++ (taken ++ ignored)).foldl appendDigit high := by
    rw [digitsValue, List.append_assoc, List.foldl_append, ← hhigh]
  rw [hvalue]
  cases leftOver with
  | nil =>
    rw [List.nil_append, List.foldl_append, ← hsignificand, List.length_nil, Nat.zero_add]
    exact mul_pow_le_foldl significand ignored
  | cons c rest =>
    have hlost : greatestOffset < appendDigit high c := hlost c rfl
    refine le_trans ?_ (mul_pow_le_foldl (appendDigit high c) (rest ++ (taken ++ ignored)))
    simp only [List.length_cons, List.length_append]
    cases taken with
    | nil =>
      -- The significand stops at the digit that is left over, which counts as a zero.
      obtain rfl : significand = high := hsignificand
      calc significand * 10 ^ (rest.length + 1 + ignored.length)
          = 10 * significand * 10 ^ (rest.length + (0 + ignored.length)) := by ring
        _ ≤ appendDigit significand c * 10 ^ (rest.length + (0 + ignored.length)) := by
            gcongr
            exact Nat.le_add_right _ _
    | cons d more =>
      -- Digits after the point take its place, but they fit a word, and with it they would not.
      refine Nat.mul_le_mul (hsmall.trans hlost.le) (Nat.pow_le_pow_right (by decide) ?_)
      simp only [List.length_cons]
      omega

end Digits

/-- The significand of a number fits a word, and a number is not scaled to more than it is. -/
theorem scaled_le (n : Number) :
    n.scaled.1 ≤ greatestOffset ∧ (n.scaled.1 : ℚ) * 10 ^ n.scaled.2 ≤ n.magnitude := by
  rcases hwhole : absorb 0 n.whole with ⟨high, leftOver⟩
  rcases hfraction : absorb high (n.fraction.getD []) with ⟨significand, ignored⟩
  obtain ⟨-, -, -, hfits, -⟩ := of_absorb_eq (Nat.zero_le _) hwhole
  obtain ⟨taken, htaken, -, hsmall, -⟩ := of_absorb_eq hfits hfraction
  have hlength := congrArg List.length htaken
  have hscaled : n.scaled = (significand, (leftOver.length + ignored.length : ℕ)
      + (powerValue n.exponent - (n.fraction.getD []).length)) := by
    rw [List.length_append] at hlength
    simp only [scaled, hwhole, hfraction, Prod.mk.injEq, true_and]
    omega
  have hdigits : ((significand * 10 ^ (leftOver.length + ignored.length) : ℕ) : ℚ)
      ≤ digitsValue (n.whole ++ n.fraction.getD []) :=
    Nat.cast_le.mpr (mul_pow_le_digitsValue hwhole hfraction)
  rw [hscaled]
  refine ⟨hsmall, ?_⟩
  rw [magnitude, zpow_add₀ (by norm_num), zpow_natCast, ← mul_assoc]
  gcongr
  exact_mod_cast hdigits

/-- Two units in the last place are room enough for three roundings. -/
theorem safeMagnitude_mul_lt : safeMagnitude * (1 + 1 / 2 ^ 53) ^ 3 < 2 ^ 1024 := by
  have hunits : (2 ^ 53 - 3 : ℚ) * (1 + 1 / 2 ^ 53) ^ 3 < 2 ^ 53 := by norm_num
  calc safeMagnitude * (1 + 1 / 2 ^ 53) ^ 3
      = (2 ^ 53 - 3) * (1 + 1 / 2 ^ 53) ^ 3 * 2 ^ 971 := mul_right_comm _ _ _
    _ < 2 ^ 53 * 2 ^ 971 := by gcongr
    _ = 2 ^ 1024 := (pow_add 2 53 971).symm

/-- The bound is less than the first power of ten that is too great for a double. -/
theorem safeMagnitude_lt : safeMagnitude < 10 ^ 309 := by
  have hpower : 2 ^ 1024 < 10 ^ 309 := by decide +kernel
  calc safeMagnitude ≤ safeMagnitude * (1 + 1 / 2 ^ 53) ^ 3 :=
        le_mul_of_one_le_right (mul_nonneg (by norm_num) (by positivity)) (by norm_num)
    _ < 2 ^ 1024 := safeMagnitude_mul_lt
    _ < 10 ^ 309 := mod_cast hpower

/-- A significand that is scaled to no more than the bound does not overflow. -/
theorem isSome_scaleUp? {significand power : ℕ} (hfits : significand ≤ greatestOffset)
    (h : (significand : ℚ) * 10 ^ power ≤ safeMagnitude) :
    (scaleUp? (UInt64.ofNat significand).toFloat power).isSome = true := by
  rcases Nat.eq_zero_or_pos significand with rfl | hpos
  · by_cases hpower : power ≤ greatestPower
    · have hfinite := (isUpTo_powerOfTen hpower).isInf_zero_mul
      simp only [scaleUp?, if_pos hpower, hfinite, Bool.false_eq_true, if_false, Option.isSome_some]
    · have hzero : ((UInt64.ofNat 0).toFloat == 0) = true := by decide
      simp only [scaleUp?, if_neg hpower, hzero, if_true, Option.isSome_some]
  · have hone : (1 : ℚ) ≤ significand := mod_cast hpos
    have hpower : power ≤ greatestPower := by
      by_contra hlarge
      have hvast : (10 : ℚ) ^ 309 ≤ significand * 10 ^ power := by
        calc (10 : ℚ) ^ 309 ≤ 10 ^ power :=
              pow_le_pow_right₀ (by norm_num) (Nat.lt_of_not_le hlarge)
          _ ≤ significand * 10 ^ power := le_mul_of_one_le_left (by positivity) hone
      exact absurd (hvast.trans h) (not_le.mpr safeMagnitude_lt)
    have hproduct : (significand : ℚ) * (1 + 1 / 2 ^ 53) * (10 ^ power * (1 + 1 / 2 ^ 53))
        * (1 + 1 / 2 ^ 53) < 2 ^ 1024 := by
      calc _ = significand * 10 ^ power * (1 + 1 / 2 ^ 53 : ℚ) ^ 3 := by ring
        _ ≤ safeMagnitude * (1 + 1 / 2 ^ 53) ^ 3 := by gcongr
        _ < 2 ^ 1024 := safeMagnitude_mul_lt
    have hrounded := (isUpTo_toFloat hpos (Nat.lt_succ_of_le hfits)).mul
      (isUpTo_powerOfTen hpower) hproduct
    simp [scaleUp?, hpower, hrounded.isInf]

/-- A number that is at least two units in the last place below the greatest double has a value. -/
theorem hasValue_of_magnitude_le {n : Number} (h : n.magnitude ≤ safeMagnitude) :
    n.hasValue = true := by
  obtain ⟨hfits, hscaled⟩ := n.scaled_le
  suffices hfloat : n.toFloat?.isSome = true by simp [hasValue, hfloat]
  by_cases hup : 0 ≤ n.scaled.2
  · have hpower : (n.scaled.1 : ℚ) * 10 ^ n.scaled.2.toNat ≤ safeMagnitude := by
      rw [← zpow_natCast, Int.toNat_of_nonneg hup]
      exact hscaled.trans h
    simp [toFloat?, hup, isSome_scaleUp? hfits hpower]
  · simp [toFloat?, hup]

/-- An offset that fits a word is far below the bound. -/
theorem magnitude_ofNat_le {n : ℕ} (hn : n ≤ greatestOffset) :
    (ofNat n).magnitude ≤ safeMagnitude := by
  have hvalue : (ofNat n).magnitude = n := by
    simp [magnitude, ofNat, powerValue]
  have hword : n ≤ 2 ^ 64 := hn.trans (by decide)
  rw [hvalue]
  calc (n : ℚ) ≤ 2 ^ 64 := mod_cast hword
    _ ≤ 2 ^ 971 := pow_le_pow_right₀ one_le_two (by decide)
    _ ≤ safeMagnitude := le_mul_of_one_le_left (by positivity) (by norm_num)

end Number

/-- All names and strings in the value have content, and its numbers are no greater than is safe. -/
inductive IsPlain : Json → Prop where
  | null : IsPlain .null
  | bool (b : Bool) : IsPlain (.bool b)
  | number {n : Number} (h : n.magnitude ≤ Number.safeMagnitude) : IsPlain (.number n)
  | string (s : String) : IsPlain (.string (some s))
  | array {items : List Json} (h : ∀ item ∈ items, IsPlain item) : IsPlain (.array items)
  | object {members : List (Option String × Json)} (names : ∀ m ∈ members, m.1.isSome = true)
      (values : ∀ m ∈ members, IsPlain m.2) : IsPlain (.object members)

/-- A string with content is plain. -/
theorem isPlain_text (s : String) : (text s).IsPlain := .string s

/-- A natural number that fits a word is plain. -/
theorem isPlain_nat {n : ℕ} (hn : n ≤ greatestOffset) : (nat n).IsPlain :=
  .number (Number.magnitude_ofNat_le hn)

/-- A value with no greater numbers and with all its strings has meaning. -/
theorem IsPlain.hasMeaning {v : Json} (h : v.IsPlain) : v.hasMeaning = true := by
  induction h with
  | null | bool | string => rfl
  | number h => exact Number.hasValue_of_magnitude_le h
  | array _ ih => exact (itemsHaveMeaning_iff _).mpr ih
  | object names _ ih => exact (membersHaveMeaning_iff _).mpr fun m hm => ⟨names m hm, ih m hm⟩

end Marginalia.Json
