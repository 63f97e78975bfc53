import PixelPipeline.Image.Component
import PixelPipeline.Proofs.Binary32.Magnitude

/-!
# Codes of clamped values

A value that is clamped to the unit interval is NaN or at most one, so its product
with the greatest code of a format is at most that code, and rounding to an integer
stays there (`atMost_roundUnorm`).
-/

namespace PixelPipeline.Binary32

open Float.Model (UnpackedFloat Format)
open Float.Model.UnpackedFloat

variable {x y : Binary32} {bound : Nat}

/-! ## Signs -/

/-- A magnitude does not depend on the sign. -/
theorem atMost_number_sign (s s' : Sign) (e : BitVec 8) (m : BitVec 23) :
    AtMost bound (number s e m) = AtMost bound (number s' e m) := by
  unfold number
  by_cases hmax : e = 255#8
  · rw [if_pos hmax, if_pos hmax]
    by_cases hm : m = 0#23
    · rw [if_pos hm, if_pos hm]
      rfl
    · rw [if_neg hm, if_neg hm]
  rw [if_neg hmax, if_neg hmax]
  by_cases hzero : e = 0#8
  · rw [if_pos hzero, if_pos hzero]
    by_cases hm : m = 0#23
    · rw [dif_pos hm, dif_pos hm]
      rfl
    · rw [dif_neg hm, dif_neg hm]
      rfl
  · rw [if_neg hzero, if_neg hzero]
    rfl

/-- A bound depends on the exponent and the fraction only, not on the sign. -/
theorem atMost_congr {b b' : BitVec 32} (hexponent : exponentField b' = exponentField b)
    (hfraction : fractionField b' = fractionField b) (hmost : AtMost bound (unpackBits b)) :
    AtMost bound (unpackBits b') := by
  rw [unpackBits_eq] at hmost ⊢
  rw [hexponent, hfraction, atMost_number_sign _ (signField b)]
  exact hmost

/-- Negation keeps a bound. -/
theorem atMost_neg (hmost : AtMost bound x.unpacked) : AtMost bound (-x).unpacked := by
  refine atMost_congr ?_ ?_ hmost
  · change (x.bits.toBitVec ^^^ 0x80000000#32).extractLsb 30 23 = x.bits.toBitVec.extractLsb 30 23
    rw [BitVec.extractLsb_xor]
    exact BitVec.xor_zero
  · change (x.bits.toBitVec ^^^ 0x80000000#32).extractLsb 22 0 = x.bits.toBitVec.extractLsb 22 0
    rw [BitVec.extractLsb_xor]
    exact BitVec.xor_zero

/-- A sign that is taken over keeps a bound. -/
theorem atMost_withSignOf (hmost : AtMost bound y.unpacked) :
    AtMost bound (withSignOf x y).unpacked := by
  unfold withSignOf
  split
  · exact atMost_neg hmost
  · exact hmost

/-! ## Comparisons -/

/-- A mantissa that is read from bits has at most 24 digits. -/
theorem mantissa_lt {b : BitVec 32} {s : Sign} {m : Nat} {e : Int} {hm : 0 < m}
    (hunpack : unpackBits b = .finite s m e hm) : m < 2 ^ 24 := by
  have hlt := (fractionField b).isLt
  rw [unpackBits_eq] at hunpack
  unfold number at hunpack
  by_cases hmax : exponentField b = 255#8
  · rw [if_pos hmax] at hunpack
    by_cases hf : fractionField b = 0#23
    · rw [if_pos hf] at hunpack
      cases hunpack
    · rw [if_neg hf] at hunpack
      cases hunpack
  rw [if_neg hmax] at hunpack
  by_cases hzero : exponentField b = 0#8
  · rw [if_pos hzero] at hunpack
    by_cases hf : fractionField b = 0#23
    · rw [dif_pos hf] at hunpack
      cases hunpack
    · rw [dif_neg hf] at hunpack
      obtain ⟨-, rfl, -⟩ := UnpackedFloat.finite.inj hunpack
      omega
  · rw [if_neg hzero] at hunpack
    obtain ⟨-, rfl, -⟩ := UnpackedFloat.finite.inj hunpack
    omega

/-- What is not above a power of two, the number with the least full mantissa, is at
most that power. -/
theorem fits_of_compare {k m : Nat} {e : Int} (hk : k ≤ 23) (hm : m < 2 ^ 24)
    (hle : (compare ((k : Int) - 23) e).then (compare (2 ^ 23) m) ≠ .lt) : Fits (2 ^ k) m e := by
  cases hexponent : compare ((k : Int) - 23) e with
  | lt =>
    rw [hexponent] at hle
    exact (hle rfl).elim
  | eq =>
    have he := Int.compare_eq_eq.mp hexponent
    rw [hexponent] at hle
    have hmantissa : m ≤ 2 ^ 23 := Nat.compare_ne_lt.mp hle
    have hpow : 2 ^ k * 2 ^ (-e).toNat = 2 ^ 23 := by
      rw [← Nat.pow_add]
      congr 1
      omega
    have hnonpos : e.toNat = 0 := by omega
    unfold Fits
    rw [hpow, hnonpos, Nat.pow_zero, Nat.mul_one]
    exact hmantissa
  | gt =>
    have he := Int.compare_eq_gt.mp hexponent
    have hpow : 2 ^ 24 ≤ 2 ^ k * 2 ^ (-e).toNat := by
      rw [← Nat.pow_add]
      exact Nat.pow_le_pow_right (by decide) (by omega)
    have hnonpos : e.toNat = 0 := by omega
    unfold Fits
    rw [hnonpos, Nat.pow_zero, Nat.mul_one]
    omega

/-- A clamped value is at most one. -/
theorem atMost_clampUnit (x : Binary32) : AtMost 1 (clampUnit x).unpacked := by
  have hone : one.unpacked = .finite .positive (2 ^ 23) (-23) (by decide) := rfl
  have hzero : zero.unpacked = .zero .positive := rfl
  have hunit : AtMost 1 one.unpacked := by
    rw [hone]
    change 2 ^ 23 * 2 ^ 0 ≤ 1 * 2 ^ 23
    decide
  unfold clampUnit clamp
  by_cases hlow : lt x zero = true
  · simp only [if_pos hlow]
    split
    · exact hunit
    · trivial
  simp only [if_neg hlow]
  by_cases hhigh : lt one x = true
  · rw [if_pos hhigh]
    exact hunit
  rw [if_neg hhigh]
  rw [lt_eq, hzero] at hlow
  rw [lt_eq, hone] at hhigh
  cases hunpack : x.unpacked with
  | notANumber => trivial
  | infinity s =>
    rw [hunpack] at hlow hhigh
    cases s with
    | negative => exact (hlow rfl).elim
    | positive => exact (hhigh rfl).elim
  | zero s => trivial
  | finite s m e hm =>
    rw [hunpack] at hlow hhigh
    cases s with
    | negative => exact (hlow rfl).elim
    | positive =>
      refine fits_of_compare (k := 0) (by decide) (mantissa_lt hunpack) fun hlt => hhigh ?_
      exact beq_iff_eq.mpr (congrArg some hlt)

/-! ## Rounding to integers -/

/-- A magnitude that can have a fraction truncates to at most `2 ^ 23`. -/
theorem toUInt32_le_of_fine (hfine : le integralFrom x = false) : x.toUInt32.toNat ≤ 2 ^ 23 := by
  have hfrom : integralFrom.unpacked = .finite .positive (2 ^ 23) 0 (by decide) := rfl
  rw [le_eq, hfrom] at hfine
  rw [toUInt32_eq]
  cases hunpack : x.unpacked with
  | notANumber => exact Nat.zero_le _
  | infinity s =>
    rw [hunpack] at hfine
    cases s with
    | negative => exact Nat.zero_le _
    | positive => cases hfine
  | zero s => exact Nat.zero_le _
  | finite s m e hm =>
    rw [hunpack] at hfine
    cases s with
    | negative => exact Nat.le_trans (Nat.le_of_eq toUInt32_negative) (Nat.zero_le _)
    | positive =>
      have hfits : Fits (2 ^ 23) m e := by
        refine fits_of_compare (k := 23) (by decide) (mantissa_lt hunpack) fun hlt => ?_
        have hle : ((compare (0 : Int) e).then (compare (2 ^ 23) m)).isLE = false := hfine
        have hlt : (compare (0 : Int) e).then (compare (2 ^ 23) m) = .lt := hlt
        rw [hlt] at hle
        cases hle
      exact toUInt32_le (u := .finite .positive m e hm) hfits

/-- Rounding to an integer keeps to a bound above the integers that round. -/
theorem atMost_roundHalfAway (hlarge : 2 ^ 23 < bound) (hbound : bound < 2 ^ 24)
    (hmost : AtMost bound x.unpacked) : AtMost bound (roundHalfAway x).unpacked := by
  have hone : AtMost 1 one.unpacked := by
    change 2 ^ 23 * 2 ^ 0 ≤ 1 * 2 ^ 23
    decide
  unfold roundHalfAway
  by_cases hcoarse : x.isCoarse = true
  · rw [if_pos hcoarse]
    exact hmost
  rw [if_neg hcoarse]
  have hfine : le integralFrom x.abs = false := by
    unfold isCoarse at hcoarse
    exact (Bool.or_eq_false_iff.mp (Bool.eq_false_iff.mpr hcoarse)).2
  have hwhole : AtMost (2 ^ 23) (integralPart x.abs).unpacked := by
    unfold integralPart
    rw [unpacked_ofFloat32]
    exact atMost_unpack_pack (by decide) (by decide)
      (atMost_ofNat (by decide) (toUInt32_le_of_fine hfine))
  simp only
  apply atMost_withSignOf
  split
  · exact hwhole.mono (by omega)
  · rw [unpacked_add]
    refine (atMost_unpack_pack (by decide) (by decide) (atMost_add (by decide) hwhole hone)).mono ?_
    omega

end PixelPipeline.Binary32

namespace PixelPipeline.Component

open Binary32

/-- The rounded code of a value in the unit interval is at most the greatest. -/
theorem atMost_roundUnorm {bound : Nat} (hlarge : 2 ^ 23 < bound) (hbound : bound < 2 ^ 24)
    {max : Binary32} (hmax : AtMost bound max.unpacked) (v : Binary32) :
    AtMost bound (roundUnorm v max).unpacked := by
  refine atMost_roundHalfAway hlarge hbound ?_
  have hproduct := atMost_mul (by omega) (atMost_clampUnit v) hmax
  rw [Nat.one_mul] at hproduct
  rw [unpacked_mul]
  exact atMost_unpack_pack (by omega) hbound hproduct

end PixelPipeline.Component
