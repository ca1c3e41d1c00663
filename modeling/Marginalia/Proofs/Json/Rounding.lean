import Marginalia.Json.Number
import Mathlib

/-!
# How far rounding goes up

A double that is rounded is greater than the exact value by no more than one part in `2 ^ 53`. That
is shown for numbers from one upwards, which are never subnormal. The mantissa is shifted until it
has 53 bits, where only the highest bit that drops out can make it greater by one, and if that gives
it a further bit it is shifted once more. Main statements: an integer becomes a double within that
bound, and so do a power of ten and the product of two doubles unless they overflow.
-/

namespace Marginalia.Json

open Float.Model
open Float.Model.UnpackedFloat (Sign ExtendedMantissa roundWithAccuracy shiftToTargetExponent)

section Mantissa

variable {m : ℕ} {e : ℤ}

/-- A mantissa loses a bit for each place that it is shifted. -/
theorem mantissa_shiftRight (em : ExtendedMantissa) (k : ℕ) :
    (em >>> k).mantissa = em.mantissa / 2 ^ k := by
  induction k with
  | zero => simp [HShiftRight.hShiftRight, Nat.repeat]
  | succ k ih =>
    change (em >>> k).mantissa / 2 = _
    rw [ih, Nat.div_div_eq_div_mul, Nat.pow_succ]

/-- The bit that drops out last decides how a mantissa is rounded. -/
theorem roundBit_shiftRight_succ (em : ExtendedMantissa) (k : ℕ) :
    (em >>> (k + 1)).roundBit = (em.mantissa / 2 ^ k % 2 != 0) := by
  rw [← mantissa_shiftRight]
  rfl

/-- A mantissa is rounded up by no more than the bit that drops out last. -/
theorem roundedMantissa_bounds (em : ExtendedMantissa) :
    em.mantissa ≤ em.roundedMantissa ∧ em.roundedMantissa ≤ em.mantissa + em.roundBit.toNat := by
  obtain ⟨m, round, sticky⟩ := em
  cases round <;> cases sticky <;>
    simp [ExtendedMantissa.roundedMantissa, ExtendedMantissa.accuracy,
      UnpackedFloat.Accuracy.roundToNearestEven]
  omega

/-- An exact mantissa, rounded as its last `k` bits drop out. -/
def rounded (m k : ℕ) : ℕ := ((⟨m, false, false⟩ : ExtendedMantissa) >>> k).roundedMantissa

/-- Rounding is never below what is left of the mantissa. -/
theorem div_le_rounded (m k : ℕ) : m / 2 ^ k ≤ rounded m k := by
  have hround := (roundedMantissa_bounds ((⟨m, false, false⟩ : ExtendedMantissa) >>> k)).1
  rwa [mantissa_shiftRight] at hround

/-- Rounding adds half of the last place that is left, and no more. -/
theorem rounded_mul_le (m k : ℕ) : 2 * rounded m k * 2 ^ k ≤ 2 * m + 2 ^ k := by
  cases k with
  | zero => simp [rounded, HShiftRight.hShiftRight, Nat.repeat, ExtendedMantissa.roundedMantissa,
      ExtendedMantissa.accuracy, UnpackedFloat.Accuracy.roundToNearestEven]
  | succ k =>
    have hround : rounded m (k + 1) ≤ m / 2 ^ (k + 1) + (m / 2 ^ k % 2 != 0).toNat := by
      have h := (roundedMantissa_bounds ((⟨m, false, false⟩ : ExtendedMantissa) >>> (k + 1))).2
      rwa [mantissa_shiftRight, roundBit_shiftRight_succ] at h
    have hbit : (m / 2 ^ k % 2 != 0).toNat = m / 2 ^ k % 2 := by
      rcases Nat.mod_two_eq_zero_or_one (m / 2 ^ k) with h | h <;> simp [h]
    -- With the bit that drops out last, the mantissa has the quotient by `2 ^ k`.
    have hquotient : 2 * rounded m (k + 1) ≤ m / 2 ^ k + 1 := by
      rw [hbit, Nat.pow_succ, ← Nat.div_div_eq_div_mul] at hround
      omega
    calc 2 * rounded m (k + 1) * 2 ^ (k + 1) ≤ (m / 2 ^ k + 1) * 2 ^ (k + 1) := by gcongr
      _ = 2 * (m / 2 ^ k * 2 ^ k) + 2 ^ (k + 1) := by ring
      _ ≤ 2 * m + 2 ^ (k + 1) := by have := Nat.div_mul_le_self m (2 ^ k); omega

/-- A number has as many bits as a power of two that it reaches. -/
theorem le_log2_of_two_pow_le {k : ℕ} (h : 2 ^ k ≤ m) : k ≤ m.log2 :=
  (Nat.le_log2 (Nat.ne_of_gt (Nat.lt_of_lt_of_le (Nat.two_pow_pos k) h))).mpr h

/-- The highest 53 bits of a number that has so many. -/
theorem highBits_bounds (hm : 2 ^ 52 ≤ m) :
    2 ^ 52 ≤ m / 2 ^ (m.log2 - 52) ∧ m / 2 ^ (m.log2 - 52) < 2 ^ 53 := by
  have hlog : 52 ≤ m.log2 := le_log2_of_two_pow_le hm
  rw [Nat.le_div_iff_mul_le (by positivity), Nat.div_lt_iff_lt_mul (by positivity), ← Nat.pow_add,
    ← Nat.pow_add]
  refine ⟨?_, ?_⟩
  · rw [Nat.add_sub_cancel' hlog]
    exact Nat.log2_self_le (by omega)
  · rw [show 53 + (m.log2 - 52) = m.log2 + 1 by omega]
    exact Nat.lt_log2_self

/-- A mantissa with too many bits is shifted until it has 53 of them. -/
theorem shiftToTargetExponent_eq (hm : 2 ^ 52 ≤ m) (he : -1074 ≤ e) :
    shiftToTargetExponent .binary64 m e .exact
      = ((⟨m, false, false⟩ : ExtendedMantissa) >>> (m.log2 - 52), e + (m.log2 - 52 : ℕ)) := by
  have hlog : 52 ≤ m.log2 := le_log2_of_two_pow_le hm
  have htarget : (Format.binary64.targetExponent (totalExponent m e) - e).toNat = m.log2 - 52 := by
    simp only [Format.targetExponent, totalExponent, Format.mantissaBits, Format.minExponent]
    norm_num
    omega
  simp [shiftToTargetExponent, UnpackedFloat.shiftToExponent, htarget,
    ExtendedMantissa.ofMantissaAndAccuracy]

/-- A mantissa with at least 53 bits is rounded to 53 bits, and up by no more than one part in
`2 ^ 53`. -/
theorem exists_roundWithAccuracy_eq (s : Sign) (hm : 2 ^ 52 ≤ m) (he : -1074 ≤ e) :
    ∃ (m' d : ℕ) (h : 0 < m'), roundWithAccuracy .binary64 s m e .exact = .finite s m' (e + d) h
      ∧ (2 ^ 52 ≤ m' ∧ m' < 2 ^ 53) ∧ m.log2 ≤ 52 + d
      ∧ 2 ^ 53 * (m' * 2 ^ d) ≤ (2 ^ 53 + 1) * m := by
  set k := m.log2 - 52 with hk
  set r := rounded m k with hr
  have hkeep : 2 ^ 52 ≤ m / 2 ^ k := (highBits_bounds hm).1
  have hround : 2 ^ 52 ≤ r := hkeep.trans (div_le_rounded m k)
  have hfinal := highBits_bounds hround
  set j := r.log2 - 52 with hj
  have hpos : 0 < r / 2 ^ j := by omega
  refine ⟨r / 2 ^ j, k + j, hpos, ?_, hfinal, by omega, ?_⟩
  · have hsecond := shiftToTargetExponent_eq (e := e + k) hround (by omega)
    rw [rounded] at hr
    simp only [roundWithAccuracy, shiftToTargetExponent_eq hm he, ← hk, ← hr, hsecond, ← hj,
      mantissa_shiftRight, dif_neg hpos.ne', Nat.cast_add, add_assoc]
  · have hlow : 2 ^ k * 2 ^ 52 ≤ m := by
      rw [mul_comm]
      exact (Nat.le_div_iff_mul_le (by positivity)).mp hkeep
    have hupper : 2 * r * 2 ^ k ≤ 2 * m + 2 ^ k := rounded_mul_le m k
    have hshift : r / 2 ^ j * 2 ^ (k + j) ≤ r * 2 ^ k := by
      calc r / 2 ^ j * 2 ^ (k + j) = r / 2 ^ j * 2 ^ j * 2 ^ k := by ring
        _ ≤ r * 2 ^ k := by gcongr; exact Nat.div_mul_le_self r (2 ^ j)
    linarith

end Mantissa

section Pack

variable {m : ℕ} {e : ℤ}

/-- A mantissa of 53 bits is the low 52 of them behind a one. -/
theorem toNat_append_mantissa (hm : 2 ^ 52 ≤ m ∧ m < 2 ^ 53) :
    (1#1 ++ BitVec.ofNat 52 m).toNat = m := by
  rw [BitVec.toNat_append, ← Nat.shiftLeft_add_eq_or_of_lt (BitVec.isLt _)]
  simp only [BitVec.toNat_ofNat, Nat.shiftLeft_eq]
  omega

/-- The bias of the exponent of a double. -/
theorem exponentBias_binary64 : (Format.binary64.exponentBias : ℤ) = 1023 := rfl

/-- A double of 53 bits is packed with its biased exponent and without the highest bit. -/
theorem pack_finite (s : Sign) (h : 0 < m) (hm : 2 ^ 52 ≤ m ∧ m < 2 ^ 53) (he : e ≤ 971) :
    UnpackedFloat.pack .binary64 (.finite s m e h)
      = UnpackedFloat.packComponents .binary64 s (BitVec.ofNat 11 (e + 1075).toNat)
          (BitVec.ofNat 52 m) := by
  have hlog : m.log2 = 52 := by
    have := le_log2_of_two_pow_le hm.1
    have := (Nat.log2_lt h.ne').mpr hm.2
    omega
  have hbits : m.log2 + 1 = Format.binary64.mantissaBits := by rw [hlog]; rfl
  have hbiased : (e + Format.binary64.exponentBias + (52 : ℕ)).toNat = (e + 1075).toNat := by
    rw [exponentBias_binary64]
    omega
  rw [UnpackedFloat.pack]
  simp only [hbiased]
  rw [if_neg (by omega), if_pos hbits]

/-- A double of 53 bits is unpacked as it was packed, if its exponent fits. -/
theorem unpack_pack_finite (s : Sign) (h : 0 < m) (hm : 2 ^ 52 ≤ m ∧ m < 2 ^ 53)
    (he : -1074 ≤ e ∧ e ≤ 971) :
    (Float.Model.pack (.finite s m e h)).unpack = .finite s m e h := by
  set b := (e + 1075).toNat with hb
  have hbiased : (BitVec.ofNat 11 b).toNat = b := by
    rw [BitVec.toNat_ofNat, Nat.mod_eq_of_lt (by omega)]
  have hlow : BitVec.ofNat 11 b ≠ 0#11 := by bv_omega
  have hhigh : BitVec.ofNat 11 b ≠ -1#11 := by bv_omega
  have hunpack : (Float.Model.pack (.finite s m e h)).unpack
      = UnpackedFloat.unpack .binary64 (UnpackedFloat.pack .binary64 (.finite s m e h)) := rfl
  rw [hunpack, pack_finite s h hm he.2, UnpackedFloat.unpack]
  simp only [UnpackedFloat.unpackExponent_packComponents,
    UnpackedFloat.unpackMantissa_packComponents, UnpackedFloat.unpackSign_packComponents,
    Sign.ofBitVec_toBitVec, ← hb, if_neg hhigh, if_neg hlow, hbiased, toNat_append_mantissa hm,
    exponentBias_binary64]
  congr 1
  omega

end Pack

/-- A double with all its bits, from one up to that number, whatever its sign is. -/
def IsUpTo (x : Float) (q : ℚ) : Prop :=
  ∃ s m e h, x.toModel.unpack = .finite s m e h ∧ 2 ^ 52 ≤ m ∧ -52 ≤ e ∧ (m : ℚ) * 2 ^ e ≤ q

section Values

variable {x y : Float} {p q : ℚ}

/-- A double within a bound is not infinite. -/
theorem IsUpTo.isInf (h : IsUpTo x q) : x.isInf = false := by
  obtain ⟨s, m, e, hm, hx, -⟩ := h
  rw [Float.isInf, Float.Model.isInf, hx]
  rfl

/-- A double within a bound is within a greater one. -/
theorem IsUpTo.mono (h : IsUpTo x p) (hpq : p ≤ q) : IsUpTo x q := by
  obtain ⟨s, m, e, hm, hx, hlow, helow, hp⟩ := h
  exact ⟨s, m, e, hm, hx, hlow, helow, hp.trans hpq⟩

/-- Zero times a double within a bound is not infinite. -/
theorem IsUpTo.isInf_zero_mul (h : IsUpTo y q) :
    ((UInt64.ofNat 0).toFloat * y).isInf = false := by
  obtain ⟨s, m, e, hm, hy, -⟩ := h
  have hzero : (UInt64.ofNat 0).toFloat.toModel.unpack = .zero .positive := rfl
  change (Float.Model.pack ((UInt64.ofNat 0).toFloat.toModel.unpack.mul .binary64
    y.toModel.unpack)).unpack.isInf = false
  have hmul : UnpackedFloat.mul .binary64 (.zero .positive) (.finite s m e hm)
      = .zero (.positive * s) := rfl
  rw [hzero, hy, hmul]
  cases s <;> decide

/-- A number of at least 53 bits, from one upwards, is rounded and packed within one part in
`2 ^ 53` more, unless that is too much for a double. -/
theorem isUpTo_pack_roundWithAccuracy (s : Sign) {m : ℕ} {e : ℤ} (hm : 2 ^ 52 ≤ m)
    (he : -1074 ≤ e) (hone : 0 ≤ m.log2 + e) (hq : (m : ℚ) * 2 ^ e * (1 + 1 / 2 ^ 53) ≤ q)
    (hfits : q < 2 ^ 1024) :
    IsUpTo ⟨Float.Model.pack (roundWithAccuracy .binary64 s m e .exact)⟩ q := by
  obtain ⟨m', d, h, heq, hm', hd, hround⟩ := exists_roundWithAccuracy_eq s hm he
  have hvalue : (m' : ℚ) * 2 ^ (e + d) ≤ q := by
    have hcast : (2 : ℚ) ^ 53 * (m' * 2 ^ d) ≤ (2 ^ 53 + 1) * m := mod_cast hround
    calc (m' : ℚ) * 2 ^ (e + d) = m' * 2 ^ d * 2 ^ e := by
          rw [zpow_add₀ two_ne_zero, zpow_natCast]
          ring
      _ ≤ m * (1 + 1 / 2 ^ 53) * 2 ^ e := by
          gcongr ?_ * 2 ^ e
          linarith
      _ = m * 2 ^ e * (1 + 1 / 2 ^ 53) := by ring
      _ ≤ q := hq
  have hexponent : e + d ≤ 971 := by
    by_contra hlarge
    have hpower : (2 : ℚ) ^ (972 : ℤ) ≤ 2 ^ (e + d) := zpow_le_zpow_right₀ one_le_two (by omega)
    have hmantissa : (2 : ℚ) ^ 52 ≤ m' := mod_cast hm'.1
    have hlimit : (2 : ℚ) ^ 1024 = 2 ^ 52 * 2 ^ (972 : ℤ) := by rw [zpow_ofNat, ← pow_add]
    have hvast : (2 : ℚ) ^ 1024 ≤ m' * 2 ^ (e + d) := by
      rw [hlimit]
      gcongr
    exact absurd (hvast.trans hvalue) (not_le.mpr hfits)
  have hunpack := unpack_pack_finite s h hm' ⟨by omega, hexponent⟩
  exact ⟨s, m', e + d, h, by rw [heq]; exact hunpack, hm'.1, by omega, hvalue⟩

/-- The product of two doubles is within the product of their bounds and one part in `2 ^ 53` more,
unless that is too much for a double. -/
theorem IsUpTo.mul (hx : IsUpTo x p) (hy : IsUpTo y q)
    (hfits : p * q * (1 + 1 / 2 ^ 53) < 2 ^ 1024) :
    IsUpTo (x * y) (p * q * (1 + 1 / 2 ^ 53)) := by
  obtain ⟨s, m, e, hm, hx, hmlow, helow, hp⟩ := hx
  obtain ⟨t, n, f, hn, hy, hnlow, hflow, hq⟩ := hy
  have hbits : 2 ^ 104 ≤ m * n := by
    calc 2 ^ 104 = 2 ^ 52 * 2 ^ 52 := by norm_num
      _ ≤ m * n := Nat.mul_le_mul hmlow hnlow
  have hlog : 104 ≤ (m * n).log2 := le_log2_of_two_pow_le hbits
  have hproduct : x * y
      = ⟨Float.Model.pack (roundWithAccuracy .binary64 (s * t) (m * n) (e + f) .exact)⟩ := by
    change (⟨Float.Model.pack (x.toModel.unpack.mul .binary64 y.toModel.unpack)⟩ : Float) = _
    rw [hx, hy]
    rfl
  rw [hproduct]
  refine isUpTo_pack_roundWithAccuracy _ (by omega) (by omega) (by omega) ?_ hfits
  have hpos : 0 ≤ p := le_trans (by positivity) hp
  gcongr ?_ * (1 + 1 / 2 ^ 53)
  calc ((m * n : ℕ) : ℚ) * 2 ^ (e + f) = (m * 2 ^ e) * (n * 2 ^ f) := by
        rw [zpow_add₀ two_ne_zero]
        push_cast
        ring
    _ ≤ p * q := by gcongr

/-- An integer of 64 bits becomes a double within one part in `2 ^ 53` more, unless it is zero. -/
theorem isUpTo_toFloat {n : ℕ} (hpos : 0 < n) (hn : n < 2 ^ 64) :
    IsUpTo (UInt64.ofNat n).toFloat (n * (1 + 1 / 2 ^ 53)) := by
  -- The integer gets further bits if it has too few for a mantissa.
  set k := 52 - n.log2 with hk
  have hlog : n.log2 < 64 := (Nat.log2_lt hpos.ne').mpr hn
  have hbits : 2 ^ 52 ≤ n * 2 ^ k := by
    calc 2 ^ 52 ≤ 2 ^ (n.log2 + k) := Nat.pow_le_pow_right (by decide) (by omega)
      _ = 2 ^ n.log2 * 2 ^ k := Nat.pow_add ..
      _ ≤ n * 2 ^ k := Nat.mul_le_mul_right _ (Nat.log2_self_le hpos.ne')
  have hround : (UInt64.ofNat n).toFloat
      = ⟨Float.Model.pack (roundWithAccuracy .binary64 .positive (n * 2 ^ k) (-k) .exact)⟩ := by
    have hword : (UInt64.ofNat n).toNat = n := UInt64.toNat_ofNat_of_lt' hn
    have hcompare : compare (n : ℤ) 0 = .gt := compare_gt_iff_gt.mpr (mod_cast hpos)
    have htarget : ((0 : ℤ) - Format.binary64.targetExponent (totalExponent n 0)).toNat = k := by
      simp only [Format.targetExponent, totalExponent, Format.mantissaBits, Format.minExponent]
      norm_num
      omega
    change (⟨Float.Model.pack (.ofUInt64 .binary64 (UInt64.ofNat n))⟩ : Float) = _
    simp only [UnpackedFloat.ofUInt64, UnpackedFloat.ofNat, UnpackedFloat.ofInt,
      UnpackedFloat.normalize, hword, hcompare, UnpackedFloat.round, Int.toNat_natCast,
      UnpackedFloat.decreaseExponent, htarget, Nat.shiftLeft_eq]
    rw [zero_sub]
  rw [hround]
  refine isUpTo_pack_roundWithAccuracy _ hbits (by omega) ?_ ?_ ?_
  · have := le_log2_of_two_pow_le hbits
    omega
  · rw [zpow_neg, zpow_natCast]
    push_cast
    rw [mul_inv_cancel_right₀ (by positivity)]
  · have hcast : (n : ℚ) < 2 ^ 64 := mod_cast hn
    calc (n : ℚ) * (1 + 1 / 2 ^ 53) < 2 ^ 64 * 2 := by gcongr; norm_num
      _ = 2 ^ 65 := by norm_num
      _ < 2 ^ 1024 := pow_lt_pow_right₀ one_lt_two (by decide)

end Values

section Powers

/-- Whether the double has all its bits and is exactly that power of ten. -/
def isPowerOfTen (x : Float) (k : ℕ) : Bool :=
  match x.toModel.unpack with
  | .finite _ m e _ => 2 ^ 52 ≤ m && -52 ≤ e && m * 2 ^ (e + 52).toNat == 10 ^ k * 2 ^ 52
  | _ => false

/-- A double that is exactly a power of ten is within it. -/
theorem isUpTo_of_isPowerOfTen {x : Float} {k : ℕ} (h : isPowerOfTen x k = true) :
    IsUpTo x (10 ^ k) := by
  unfold isPowerOfTen at h
  split at h
  · next s m e hm hunpack =>
    simp only [Bool.and_eq_true, decide_eq_true_eq, beq_iff_eq] at h
    obtain ⟨⟨hbits, hlow⟩, hvalue⟩ := h
    refine ⟨s, m, e, hm, hunpack, hbits, hlow, ?_⟩
    have hexponent : (2 : ℚ) ^ (e + 52).toNat = 2 ^ e * 2 ^ 52 := by
      rw [← zpow_natCast, Int.toNat_of_nonneg (by omega), zpow_add₀ two_ne_zero]
      rfl
    have hcast : (m : ℚ) * 2 ^ (e + 52).toNat = 10 ^ k * 2 ^ 52 := mod_cast hvalue
    rw [hexponent, ← mul_assoc] at hcast
    exact (mul_right_cancel₀ (by positivity) hcast).le
  · cases h

/-- The powers of ten that a double holds exactly, which are those of a table. -/
theorem isPowerOfTen_powerOfTen : ∀ k < 23, isPowerOfTen (Number.powerOfTen k) k = true := by
  decide +kernel

/-- A greater power of ten is rounded once. -/
theorem powerOfTen_eq {k : ℕ} (hk : 23 ≤ k) (hmax : k ≤ 308) :
    Number.powerOfTen k = ⟨Float.Model.pack
      (roundWithAccuracy .binary64 .positive (2 ^ 53 * 10 ^ k) (-53) .exact)⟩ := by
  have hmodel : Number.powerOfTen k = ⟨Float.Model.pack (.ofScientific .binary64 1 k)⟩ := by
    rw [Number.powerOfTen, Float.ofScientific, dif_neg (by omega)]
    rfl
  have hexponent : (2 : ℤ) ^ Format.binary64.exponentBits = 2048 := rfl
  have hmantissa : 1 <<< Format.binary64.mantissaBits = 2 ^ 53 := rfl
  have hsign : Sign.positive * Sign.positive = .positive := rfl
  rw [hmodel, UnpackedFloat.ofScientific, dif_neg one_ne_zero, if_neg (by omega),
    if_neg (by omega), if_pos (by omega)]
  simp only [UnpackedFloat.mul, Int.toNat_natCast, hmantissa, hsign]
  rfl

/-- Every power of ten becomes a double within one part in `2 ^ 53` more, unless that overflows. -/
theorem isUpTo_powerOfTen {k : ℕ} (hk : k ≤ 308) :
    IsUpTo (Number.powerOfTen k) (10 ^ k * (1 + 1 / 2 ^ 53)) := by
  by_cases hsmall : k < 23
  · refine (isUpTo_of_isPowerOfTen (isPowerOfTen_powerOfTen k hsmall)).mono ?_
    exact le_mul_of_one_le_right (by positivity) (by norm_num)
  · have hbits : 2 ^ 53 ≤ 2 ^ 53 * 10 ^ k := Nat.le_mul_of_pos_right _ (by positivity)
    have hlog : 53 ≤ (2 ^ 53 * 10 ^ k).log2 := le_log2_of_two_pow_le hbits
    rw [powerOfTen_eq (by omega) hk]
    refine isUpTo_pack_roundWithAccuracy _ (by omega) (by decide) (by omega) ?_ ?_
    · have hvalue : ((2 ^ 53 * 10 ^ k : ℕ) : ℚ) * 2 ^ (-53 : ℤ) = 10 ^ k := by
        rw [Nat.cast_mul, Nat.cast_pow, Nat.cast_pow, Nat.cast_ofNat, Nat.cast_ofNat, zpow_neg,
          zpow_ofNat, mul_comm ((2 : ℚ) ^ 53), mul_inv_cancel_right₀ (by positivity)]
      rw [hvalue]
    · have hlimit : (10 : ℚ) ^ 308 * (2 ^ 53 + 1) < 2 ^ 1024 * 2 ^ 53 := by
        have : 10 ^ 308 * (2 ^ 53 + 1) < 2 ^ 1024 * 2 ^ 53 := by decide +kernel
        exact_mod_cast this
      have hfactor : (1 + 1 / 2 ^ 53 : ℚ) = (2 ^ 53 + 1) / 2 ^ 53 := by norm_num
      rw [hfactor, ← mul_div_assoc, div_lt_iff₀ (by positivity)]
      refine lt_of_le_of_lt ?_ hlimit
      gcongr
      norm_num

end Powers

end Marginalia.Json
