import PixelPipeline.Proofs.Binary32.Exact
import PixelPipeline.Proofs.Binary32.Quotient
import PixelPipeline.Proofs.Binary32.Rounding

/-!
# Errors of products and quotients

A finite number is a rational one (`rational`), and a result is near to the exact one if it
differs from it by at most half a unit of the last digit of a full mantissa (`Near`).
Products and quotients are near to the exact ones wherever these are normal numbers
(`near_mul`, `near_div`).
-/

namespace PixelPipeline.Binary32

open Float.Model (UnpackedFloat Format totalExponent)
open Float.Model.UnpackedFloat

variable {m m' : Nat} {e e' : Int} {s : Sign} {a : Accuracy} {x y : Binary32} {q : ℚ}

/-! ## Rational values -/

/-- A number as a rational one; infinities count as the powers of two that overflow. -/
def rational (x : Binary32) : ℚ := x.value / unitCount

/-- A number of value zero is zero. -/
theorem rational_of_value (hvalue : x.value = 0) : rational x = 0 := by
  unfold rational
  rw [hvalue, Int.cast_zero, zero_div]

/-- The factor that a sign stands for. -/
def factor : Sign → ℚ
  | .negative => -1
  | .positive => 1

/-- A sign has magnitude one. -/
theorem abs_factor (s : Sign) : |factor s| = 1 := by
  cases s with
  | negative => exact (abs_neg 1).trans abs_one
  | positive => exact abs_one

/-- The factor of a product of signs is the product of the factors. -/
theorem factor_mul (s s' : Sign) : factor (s * s') = factor s * factor s' := by
  cases s with
  | negative =>
    have hflip : factor (.negative * s') = -factor s' := by
      cases s' with
      | negative => exact (neg_neg 1).symm
      | positive => rfl
    rw [hflip]
    exact (neg_one_mul _).symm
  | positive =>
    have hkeep : Sign.positive * s' = s' := by cases s' <;> rfl
    rw [hkeep]
    exact (one_mul _).symm

/-- The factor of a quotient of signs is the quotient of the factors. -/
theorem factor_div (s s' : Sign) : factor (s / s') = factor s / factor s' := by
  have hsign : s / s' = s * s' := by cases s <;> cases s' <;> rfl
  have hinverse : (factor s')⁻¹ = factor s' := by
    cases s' with
    | negative => exact inv_neg_one
    | positive => exact inv_one
  rw [hsign, factor_mul, div_eq_mul_inv, hinverse]

/-- Applying a sign multiplies by its factor. -/
theorem apply_cast (s : Sign) (k : Nat) : ((s.apply (k : Int) : Int) : ℚ) = factor s * k := by
  cases s with
  | negative => exact (Int.cast_neg _).trans (neg_one_mul _).symm
  | positive => exact (one_mul _).symm

/-- A finite number that is not zero, with its rational value. -/
theorem exists_finite (hfinite : x.isFinite = true) (hne : x.value ≠ 0) :
    ∃ s m e, ∃ hm : 0 < m, x.unpacked = .finite s m e hm ∧ Canonical (.finite s m e hm) ∧
      rational x = factor s * (m * 2 ^ e) := by
  obtain ⟨hnumber, hbelow⟩ := isFinite_iff.mp hfinite
  have hcanonical := canonical_of_isNaN hnumber
  have hinfinite := ne_infinity_of_value hbelow
  unfold rational
  unfold value at hne ⊢
  generalize x.unpacked = u at hcanonical hinfinite hne ⊢
  cases u with
  | notANumber => exact hcanonical.elim
  | infinity s => exact (hinfinite s rfl).elim
  | zero s => exact (hne rfl).elim
  | finite s m e hm =>
    refine ⟨s, m, e, hm, rfl, hcanonical, ?_⟩
    rw [valueOf_finite, apply_cast, mul_div_assoc, units_cast hcanonical.2.1]

/-- The exact results whose mantissas are full: zero, and the magnitudes that reach neither
below the normal numbers nor near the overflow. -/
def InRange (q : ℚ) : Prop := q = 0 ∨ (2 : ℚ) ^ (-126 : Int) ≤ |q| ∧ |q| < 2 ^ (127 : Int)

/-- A number whose relative error is at most half a unit of the last digit. -/
structure Near (x : Binary32) (q : ℚ) : Prop where
  number : x.isNaN = false
  error : |rational x - q| ≤ |q| / 2 ^ 24

/-- A zero is zero without an error. -/
theorem near_zero (hzero : Equals x zero) : Near x 0 := by
  refine ⟨hzero.left, ?_⟩
  rw [rational_of_value hzero.value, sub_zero, abs_zero, zero_div]

/-- What was rounded is near to the exact result. -/
theorem near_of_round (hpack : x.unpacked
      = unpackBits (packBits (roundWithAccuracy Format.binary32 s m e a)))
    (hrep : Represents (.ofMantissaAndAccuracy m a) q) (hfull : 2 ^ 23 ≤ m)
    (hlow : (2 : ℚ) ^ (-126 : Int) ≤ q * 2 ^ e) (hhigh : q * 2 ^ e < 2 ^ (127 : Int)) :
    Near x (factor s * (q * 2 ^ e)) := by
  obtain ⟨k, hcanonical, hvalue, herror⟩ := roundWithAccuracy_near (s := s) hrep hfull hlow hhigh
  rw [unpack_pack_canonical hcanonical] at hpack
  have hpos : 0 < q * 2 ^ e := lt_of_lt_of_le (zpow_pos two_pos _) hlow
  have hrational : rational x = factor s * (k / (unitCount : Nat)) := by
    unfold rational value
    rw [hpack, hvalue, apply_cast, mul_div_assoc]
  refine ⟨isNaN_of_canonical (hpack ▸ hcanonical), ?_⟩
  rw [hrational, ← mul_sub, abs_mul, abs_mul, abs_factor, one_mul, one_mul, abs_of_pos hpos]
  exact herror

/-! ## Products and quotients -/

/-- The magnitude of a result in the range that is not zero. -/
theorem InRange.bounds (hq : 0 < q) (hrange : InRange (factor s * q)) :
    (2 : ℚ) ^ (-126 : Int) ≤ q ∧ q < 2 ^ (127 : Int) := by
  have habs : |factor s * q| = q := by rw [abs_mul, abs_factor, one_mul, abs_of_pos hq]
  have hne : factor s * q ≠ 0 := abs_pos.mp (habs.symm ▸ hq)
  have hbounds := hrange.resolve_left hne
  rwa [habs] at hbounds

/-- Mantissas whose product is in range have a full product: two numbers below the normal
ones are too small. -/
theorem full_product {hm : 0 < m} {hm' : 0 < m'} {s' : Sign}
    (hcanonical : Canonical (.finite s m e hm)) (hcanonical' : Canonical (.finite s' m' e' hm'))
    (hlow : (2 : ℚ) ^ (-126 : Int) ≤ ((m * m' : Nat) : ℚ) * 2 ^ (e + e')) : 2 ^ 23 ≤ m * m' := by
  by_cases hfull : 2 ^ 23 ≤ m
  · exact Nat.le_trans hfull (Nat.le_mul_of_pos_right m hm')
  by_cases hfull' : 2 ^ 23 ≤ m'
  · exact Nat.le_trans hfull' (Nat.le_mul_of_pos_left m' hm)
  obtain rfl : e = -149 := hcanonical.2.2.2.resolve_left hfull
  obtain rfl : e' = -149 := hcanonical'.2.2.2.resolve_left hfull'
  have hsmall : m * m' < 2 ^ 23 * 2 ^ 23 :=
    Nat.mul_lt_mul_of_lt_of_lt (Nat.lt_of_not_le hfull) (Nat.lt_of_not_le hfull')
  have hpos : (0 : ℚ) < 2 ^ (-149 + -149 : Int) := zpow_pos two_pos _
  have hbelow : ((m * m' : Nat) : ℚ) * 2 ^ (-149 + -149 : Int)
      < 2 ^ (46 : Int) * 2 ^ (-149 + -149 : Int) :=
    mul_lt_mul_of_pos_right (mod_cast hsmall) hpos
  have hlt := lt_of_le_of_lt hlow hbelow
  rw [← zpow_add₀ two_ne_zero, zpow_lt_zpow_iff_right₀ one_lt_two] at hlt
  omega

/-- **A product in range** is near to the exact one. -/
theorem near_mul (hx : x.isFinite = true) (hy : y.isFinite = true)
    (hrange : InRange (rational x * rational y)) : Near (x * y) (rational x * rational y) := by
  by_cases hxv : x.value = 0
  · rw [rational_of_value hxv, zero_mul]
    exact near_zero (equals_mul_zero ⟨(isFinite_iff.mp hx).1, rfl, hxv⟩ hy)
  by_cases hyv : y.value = 0
  · rw [rational_of_value hyv, mul_zero]
    exact near_zero (equals_zero_mul ⟨(isFinite_iff.mp hy).1, rfl, hyv⟩ hx)
  obtain ⟨s, m, e, hm, hunpack, hcanonical, hrational⟩ := exists_finite hx hxv
  obtain ⟨s', m', e', hm', hunpack', hcanonical', hrational'⟩ := exists_finite hy hyv
  have hproduct : rational x * rational y
      = factor (s * s') * (((m * m' : Nat) : ℚ) * 2 ^ (e + e')) := by
    rw [hrational, hrational', factor_mul, Nat.cast_mul, zpow_add₀ two_ne_zero,
      mul_mul_mul_comm, mul_mul_mul_comm (m : ℚ)]
  have hpos : (0 : ℚ) < ((m * m' : Nat) : ℚ) * 2 ^ (e + e') :=
    mul_pos (Nat.cast_pos.mpr (Nat.mul_pos hm hm')) (zpow_pos two_pos _)
  rw [hproduct] at hrange ⊢
  obtain ⟨hlow, hhigh⟩ := hrange.bounds hpos
  refine near_of_round (a := .exact) ?_ (represents_exact _)
    (full_product hcanonical hcanonical' hlow) hlow hhigh
  rw [unpacked_mul, hunpack, hunpack']
  rfl

/-- A zero divided by a number that is not zero is a zero. -/
theorem equals_zero_div (hx : Equals x zero) (hy : y.isFinite = true) (hne : y.value ≠ 0) :
    Equals (x / y) zero := by
  obtain ⟨s, hunpack⟩ := equals_zero_iff.mp hx
  obtain ⟨s', m', e', hm', hunpack', -⟩ := exists_finite hy hne
  have hdiv := unpacked_div x y
  rw [hunpack, hunpack'] at hdiv
  exact equals_zero_of_pack hdiv

/-- The exponent of a quotient leaves room for a full mantissa. -/
theorem full_quotient (hm : 0 < m) (hm' : 0 < m') {shift : Nat} {target : Int}
    (hshift : (shift : Int) = e - e' - target)
    (htarget : target ≤ max (totalExponent m e - totalExponent m' e' - 24) (-149))
    (hlow : (2 : ℚ) ^ (-126 : Int) ≤ ((m * 2 ^ shift : Nat) : ℚ) / m' * 2 ^ target) :
    2 ^ 23 ≤ m * 2 ^ shift / m' := by
  rw [Nat.le_div_iff_mul_le hm']
  rcases le_max_iff.mp htarget with htarget | htarget
  · -- the logarithms say how many digits the quotient has
    have hdigits : 2 ^ m.log2 ≤ m := Nat.log2_self_le (Nat.ne_of_gt hm)
    have hdigits' : m' < 2 ^ (m'.log2 + 1) := Nat.lt_log2_self
    have hpow : 23 + (m'.log2 + 1) ≤ m.log2 + shift := by
      unfold totalExponent at htarget
      omega
    calc 2 ^ 23 * m' ≤ 2 ^ 23 * 2 ^ (m'.log2 + 1) := Nat.mul_le_mul_left _ (Nat.le_of_lt hdigits')
      _ = 2 ^ (23 + (m'.log2 + 1)) := (Nat.pow_add ..).symm
      _ ≤ 2 ^ (m.log2 + shift) := Nat.pow_le_pow_right (by decide) hpow
      _ = 2 ^ m.log2 * 2 ^ shift := Nat.pow_add ..
      _ ≤ m * 2 ^ shift := Nat.mul_le_mul_right _ hdigits
  · have hpos : (0 : ℚ) < m' := Nat.cast_pos.mpr hm'
    have hle : (2 : ℚ) ^ (-126 : Int) ≤ ((m * 2 ^ shift : Nat) : ℚ) / m' * 2 ^ (-149 : Int) :=
      le_trans hlow (mul_le_mul_of_nonneg_left
        (zpow_le_zpow_right₀ one_lt_two.le htarget) (by positivity))
    have hsplit : (2 : ℚ) ^ (-126 : Int) = 2 ^ 23 * 2 ^ (-149 : Int) := by
      rw [← zpow_natCast, ← zpow_add₀ two_ne_zero]
      rfl
    rw [hsplit] at hle
    have hquotient := le_of_mul_le_mul_right hle (zpow_pos two_pos _)
    rw [le_div_iff₀ hpos] at hquotient
    exact_mod_cast hquotient

/-- **A quotient in range** is near to the exact one. -/
theorem near_div (hx : x.isFinite = true) (hy : y.isFinite = true) (hne : y.value ≠ 0)
    (hrange : InRange (rational x / rational y)) : Near (x / y) (rational x / rational y) := by
  by_cases hxv : x.value = 0
  · rw [rational_of_value hxv, zero_div]
    exact near_zero (equals_zero_div ⟨(isFinite_iff.mp hx).1, rfl, hxv⟩ hy hne)
  obtain ⟨s, m, e, hm, hunpack, hcanonical, hrational⟩ := exists_finite hx hxv
  obtain ⟨s', m', e', hm', hunpack', hcanonical', hrational'⟩ := exists_finite hy hne
  -- how far the dividend is shifted
  obtain ⟨target, htarget⟩ : ∃ target, target = min (e - e')
      (Format.binary32.targetExponent (totalExponent m e - totalExponent m' e')) := ⟨_, rfl⟩
  obtain ⟨shift, hshift⟩ : ∃ shift : Nat, (shift : Int) = e - e' - target :=
    ⟨(e - e' - target).toNat, by omega⟩
  have hquotient : rational x / rational y
      = factor (s / s') * (((m * 2 ^ shift : Nat) : ℚ) / m' * 2 ^ target) := by
    have hpow : (2 : ℚ) ^ e = 2 ^ shift * 2 ^ target * 2 ^ e' := by
      have hexponent : e = shift + target + e' := by omega
      rw [hexponent, zpow_add₀ two_ne_zero, zpow_add₀ two_ne_zero, zpow_natCast]
    have hne' : (2 : ℚ) ^ e' ≠ 0 := zpow_ne_zero _ two_ne_zero
    rw [hrational, hrational', factor_div, mul_div_mul_comm, hpow, ← mul_assoc, ← mul_assoc,
      mul_div_mul_right _ _ hne', mul_div_right_comm, Nat.cast_mul, Nat.cast_pow, Nat.cast_ofNat]
  have hpos : (0 : ℚ) < ((m * 2 ^ shift : Nat) : ℚ) / m' * 2 ^ target :=
    mul_pos (div_pos (Nat.cast_pos.mpr (Nat.mul_pos hm (Nat.two_pow_pos _)))
      (Nat.cast_pos.mpr hm')) (zpow_pos two_pos _)
  rw [hquotient] at hrange ⊢
  obtain ⟨hlow, hhigh⟩ := hrange.bounds hpos
  have hle : target ≤ max (totalExponent m e - totalExponent m' e' - 24) (-149) := by
    rw [htarget]
    exact Int.min_le_right _ _
  refine near_of_round ?_ (represents_fraction _ hm') (full_quotient hm hm' hshift hle hlow)
    hlow hhigh
  have hcore : divCore Format.binary32 m e m' e' = (m * 2 ^ shift / m', target,
      accuracyOfFraction (m * 2 ^ shift % m') m') := by
    have hcut : (e - e' - target).toNat = shift := by omega
    unfold divCore
    simp only [← htarget, hcut, Nat.shiftLeft_eq]
  rw [unpacked_div, hunpack, hunpack']
  change unpackBits (packBits (match divCore Format.binary32 m e m' e' with
    | (m, e, a) => roundWithAccuracy Format.binary32 (s / s') m e a)) = _
  rw [hcore]

end PixelPipeline.Binary32
