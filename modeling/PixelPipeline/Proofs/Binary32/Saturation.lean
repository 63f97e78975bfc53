import PixelPipeline.Proofs.Binary32.Exact

/-!
# Integers and words

Conversions to integers truncate toward zero and stop at the bounds of the target; NaN
becomes zero.  All of them are one function of the truncated number (`saturate`).

A number that is an integer (`Whole`) is rounded to itself and converted to itself, and its
integer is converted back without an error.  So an integer that was rounded and moved into a
range is rounded to itself again, provided that the bounds of the range are not rounded to
its inside (`saturate_rounded_ofInt`).
-/

namespace PixelPipeline.Binary32

open Float.Model (UnpackedFloat)
open Float.Model.UnpackedFloat

variable {u : UnpackedFloat} {n low high bound : Nat} {i j : Int} {x : Binary32}

/-! ## Truncation -/

/-- An integer moved into the range from `-low` to `high`. -/
def saturate (low high : Nat) (i : Int) : Int := max (-low) (min i high)

/-- What was saturated lies in the range. -/
theorem saturate_bounds (low high : Nat) (i : Int) :
    -low ≤ saturate low high i ∧ saturate low high i ≤ high := by
  unfold saturate
  omega

/-- What lies in the range is not moved. -/
theorem saturate_eq_self (hlow : -low ≤ i) (hhigh : i ≤ high) : saturate low high i = i := by
  unfold saturate
  omega

/-- The lower bound stands for what is smaller. -/
theorem saturate_of_le (hle : i ≤ -low) : saturate low high i = -low := by
  unfold saturate
  omega

/-- The upper bound stands for what is larger. -/
theorem saturate_of_ge (hge : high ≤ i) : saturate low high i = high := by
  unfold saturate
  omega

/-- The integral part of a number, toward zero; that of NaN is zero. -/
def truncated (x : Binary32) : Int := x.value.tdiv unitCount

/-- Core truncates toward zero, and stops at the bound. -/
theorem saturate_toInt (hu : u = .notANumber ∨ Canonical u)
    (hbound : bound * unitCount ≤ overflowCount) :
    ((min (toInt 0 bound u).toNat bound : Nat) : Int)
      = saturate 0 bound ((valueOf u).tdiv unitCount) := by
  have hunit : 0 < unitCount := by decide
  have happly : ∀ (s : Sign) (a : Nat),
      (s.apply (a : Int)).tdiv unitCount = s.apply (a / unitCount : Nat) := by
    intro s a
    cases s with
    | negative => exact Int.neg_tdiv _ _
    | positive => rfl
  unfold saturate
  cases u with
  | notANumber =>
    change ((min 0 bound : Nat) : Int) = max (-((0 : Nat) : Int)) (min 0 bound)
    omega
  | infinity s =>
    have hlarge : bound ≤ overflowCount / unitCount := (Nat.le_div_iff_mul_le hunit).mpr hbound
    rw [valueOf_infinity, happly]
    generalize overflowCount / unitCount = c at hlarge ⊢
    cases s with
    | negative =>
      change ((min 0 bound : Nat) : Int) = max (-((0 : Nat) : Int)) (min (-(c : Int)) bound)
      omega
    | positive =>
      change ((min bound bound : Nat) : Int) = max (-((0 : Nat) : Int)) (min (c : Int) bound)
      omega
  | zero s =>
    change ((min 0 bound : Nat) : Int) = max (-((0 : Nat) : Int)) (min 0 bound)
    omega
  | finite s m e hm =>
    have hcanonical := hu.resolve_left UnpackedFloat.noConfusion
    rw [toInt_finite, valueOf_finite, happly, units_div hcanonical.2.1]
    omega

/-- An unsigned conversion saturates the truncated number. -/
theorem saturate_unpacked (hbound : bound * unitCount ≤ overflowCount) (x : Binary32) :
    ((min (toInt 0 bound x.unpacked).toNat bound : Nat) : Int)
      = saturate 0 bound (truncated x) := by
  refine saturate_toInt ?_ hbound
  by_cases hnan : x.isNaN = true
  · exact .inl (unpacked_of_isNaN hnan)
  · exact .inr (canonical_of_isNaN (Bool.eq_false_iff.mpr hnan))

/-- The greatest word stands for what is larger. -/
theorem dite_eq_min {size : Nat} (hsize : 0 < size) (k : Nat) :
    (if _ : k < size then k else size - 1) = min k (size - 1) := by
  split
  · omega
  · omega

/-- Conversion to 8 bits truncates and saturates. -/
theorem toUInt8_saturates (x : Binary32) :
    (x.toUInt8.toNat : Int) = saturate 0 (2 ^ 8 - 1) (truncated x) := by
  have hword : x.toUInt8 = x.unpacked.toUInt8 := by
    rw [← unpack_toFloat32 x]
    rfl
  rw [hword, ← saturate_unpacked (by decide)]
  exact congrArg Int.ofNat ((apply_dite UInt8.toNat ..).trans (dite_eq_min (by decide) _))

/-- Conversion to 16 bits truncates and saturates. -/
theorem toUInt16_saturates (x : Binary32) :
    (x.toUInt16.toNat : Int) = saturate 0 (2 ^ 16 - 1) (truncated x) := by
  have hword : x.toUInt16 = x.unpacked.toUInt16 := by
    rw [← unpack_toFloat32 x]
    rfl
  rw [hword, ← saturate_unpacked (by decide)]
  exact congrArg Int.ofNat ((apply_dite UInt16.toNat ..).trans (dite_eq_min (by decide) _))

/-- Conversion to 32 bits truncates and saturates. -/
theorem toUInt32_saturates (x : Binary32) :
    (x.toUInt32.toNat : Int) = saturate 0 (2 ^ 32 - 1) (truncated x) := by
  rw [toUInt32_eq, ← saturate_unpacked (by decide)]
  exact congrArg Int.ofNat ((apply_dite UInt32.toNat ..).trans (dite_eq_min (by decide) _))

/-- Conversion to 64 bits truncates and saturates. -/
theorem toUInt64_saturates (x : Binary32) :
    (x.toUInt64.toNat : Int) = saturate 0 (2 ^ 64 - 1) (truncated x) := by
  have hword : x.toUInt64 = x.unpacked.toUInt64 := by
    rw [← unpack_toFloat32 x]
    rfl
  rw [hword, ← saturate_unpacked (by decide)]
  exact congrArg Int.ofNat ((apply_dite UInt64.toNat ..).trans (dite_eq_min (by decide) _))

/-- Truncation commutes with negation. -/
theorem truncated_neg (x : Binary32) : truncated (-x) = -truncated x := by
  unfold truncated
  rw [value_neg, Int.neg_tdiv]

/-- Truncation toward zero into a range of signed integers. -/
theorem toIntSaturating_saturates (hlow : low < 2 ^ 64) (hhigh : high < 2 ^ 64) (x : Binary32) :
    toIntSaturating low high x = saturate low high (truncated x) := by
  have hunit : (0 : Int) ≤ unitCount := Int.natCast_nonneg _
  have hnonneg := x.value_abs_nonneg
  have hvalue := x.value_eq
  unfold toIntSaturating
  by_cases hsign : x.signBit = true
  · rw [if_pos hsign] at hvalue
    have hword := toUInt64_saturates (-x)
    have hnonpos : 0 ≤ truncated (-x) := by
      refine Int.tdiv_nonneg ?_ hunit
      rw [value_neg]
      omega
    rw [truncated_neg] at hword hnonpos
    unfold saturate at hword ⊢
    rw [if_pos hsign]
    omega
  · rw [if_neg hsign] at hvalue
    have hword := toUInt64_saturates x
    have hpos : 0 ≤ truncated x := Int.tdiv_nonneg (by omega) hunit
    unfold saturate at hword ⊢
    rw [if_neg hsign]
    omega

/-! ## Integers -/

/-- The number is an integer. -/
structure Whole (x : Binary32) (i : Int) : Prop where
  number : x.isNaN = false
  value : x.value = i * unitCount

namespace Whole

/-- An integer is truncated to itself. -/
theorem truncated (hx : Whole x i) : x.truncated = i := by
  have hunit : (unitCount : Int) ≠ 0 := by decide
  unfold Binary32.truncated
  rw [hx.value, Int.mul_tdiv_cancel _ hunit]

/-- The negation of an integer is the negated integer. -/
theorem neg (hx : Whole x i) : Whole (-x) (-i) := by
  refine ⟨x.isNaN_neg.trans hx.number, ?_⟩
  rw [value_neg, hx.value, Int.neg_mul]

/-- An integer is rounded to itself. -/
theorem roundHalfAway (hx : Whole x i) : Whole (roundHalfAway x) i := by
  have hunit : 0 < unitCount := by decide
  obtain ⟨hnumber, j, hvalue, hnear⟩ := exists_roundHalfAway hx.number
  have hj : j = i := by
    rw [hx.value, ← Int.sub_mul, Int.natAbs_mul, Int.natAbs_natCast] at hnear
    have hlt : (j - i).natAbs < 1 := by
      refine Nat.lt_of_mul_lt_mul_right (a := unitCount) ?_
      omega
    omega
  exact ⟨hnumber, hj ▸ hvalue⟩

/-- Integers of 64 bits are far below the overflow. -/
theorem isFinite (hx : Whole x i) (hi : i.natAbs < 2 ^ 64) : x.isFinite = true := by
  have hbelow : i.natAbs * unitCount < overflowCount :=
    Nat.mul_lt_mul_of_pos_right (Nat.lt_trans hi (by decide)) (by decide)
  refine isFinite_iff.mpr ⟨hx.number, ?_⟩
  rw [hx.value, Int.natAbs_mul, Int.natAbs_natCast]
  exact hbelow

/-- The integer that a number is, converted back, is that number. -/
theorem ofNat (hx : Whole x n) (hlt : n < 2 ^ 64) : Whole (ofNat n) n := by
  have hequals := equals_ofNat (hx.isFinite hlt) hlt (hx.value.trans (Int.natCast_mul ..).symm)
  exact ⟨hequals.left, hequals.value.trans hx.value⟩

end Whole

/-- Small integers are converted without an error. -/
theorem whole_ofNat (hlt : n < 2 ^ 24) : Whole (ofNat n) n :=
  ⟨(ofNat_nonneg n).1, (value_ofNat hlt).trans (Int.natCast_mul ..)⟩

/-- A signed integer is converted as well as its magnitude. -/
theorem whole_ofInt_of_natAbs (hmagnitude : Whole (ofNat i.natAbs) i.natAbs) :
    Whole (ofInt i) i := by
  unfold ofInt
  by_cases hneg : i < 0
  · have hback : -(i.natAbs : Int) = i := by omega
    have hflipped := hmagnitude.neg
    rw [hback] at hflipped
    rw [if_pos hneg]
    exact hflipped
  · have hback : (i.natAbs : Int) = i := by omega
    rw [hback] at hmagnitude
    rw [if_neg hneg]
    exact hmagnitude

/-- An integer of at most 24 digits is converted without an error. -/
theorem whole_ofInt (hlt : i.natAbs < 2 ^ 24) : Whole (ofInt i) i :=
  whole_ofInt_of_natAbs (whole_ofNat hlt)

/-- An integer that a number was is converted back without an error. -/
theorem Whole.ofInt (hx : Whole x i) (hlt : i.natAbs < 2 ^ 64) : Whole (ofInt i) i := by
  refine whole_ofInt_of_natAbs ?_
  by_cases hneg : i < 0
  · have hback : -i = i.natAbs := by omega
    have hflipped := hx.neg
    rw [hback] at hflipped
    exact hflipped.ofNat hlt
  · have hback : i = i.natAbs := by omega
    rw [hback] at hx
    exact hx.ofNat hlt

/-! ## Rounding into a range -/

/-- The nearest integer, a half away from zero; that of NaN is zero. -/
def rounded (x : Binary32) : Int := truncated (roundHalfAway x)

/-- An integer is rounded to itself. -/
theorem Whole.rounded (hx : Whole x i) : x.rounded = i := hx.roundHalfAway.truncated

/-- NaN is rounded to zero. -/
theorem rounded_of_isNaN (hnan : x.isNaN = true) : rounded x = 0 := by
  have hcoarse : x.isCoarse = true := Bool.or_eq_true_iff.mpr (.inl hnan)
  have hsame : roundHalfAway x = x := if_pos hcoarse
  unfold rounded truncated value
  rw [hsame, unpacked_of_isNaN hnan]
  rfl

/-- What is rounded is the integer nearest to it. -/
theorem whole_rounded (hnumber : x.isNaN = false) : Whole (roundHalfAway x) (rounded x) ∧
    2 * (rounded x * unitCount - x.value).natAbs ≤ unitCount := by
  obtain ⟨hround, i, hvalue, hnear⟩ := exists_roundHalfAway hnumber
  have hwhole : Whole (roundHalfAway x) i := ⟨hround, hvalue⟩
  have hi : rounded x = i := hwhole.truncated
  rw [hi]
  exact ⟨hwhole, hnear⟩

/-- An integral bound is a bound of the nearest integer. -/
theorem Within.natAbs_rounded (hx : Within n x) : (rounded x).natAbs ≤ n := by
  obtain ⟨-, hnear⟩ := whole_rounded hx.number
  have hbound := hx.natAbs_value
  have hunit : 0 < unitCount := by decide
  have hscale : (rounded x * unitCount).natAbs = (rounded x).natAbs * unitCount := by
    rw [Int.natAbs_mul, Int.natAbs_natCast]
  have hscaled : (rounded x).natAbs * unitCount < (n + 1) * unitCount := by
    rw [← hscale, Nat.succ_mul]
    omega
  exact Nat.lt_succ_iff.mp (Nat.lt_of_mul_lt_mul_right hscaled)

/-- **An integer that was rounded into a range is rounded to itself again**, if the bounds
of the range are. -/
theorem saturate_rounded_ofInt (hlow : low < 2 ^ 64) (hhigh : high < 2 ^ 64)
    (hleast : ∃ j ≤ -(low : Int), Whole (ofInt (-low)) j)
    (hgreatest : ∃ j ≥ (high : Int), Whole (ofInt high) j) (x : Binary32) :
    saturate low high (rounded (ofInt (saturate low high (rounded x))))
      = saturate low high (rounded x) := by
  by_cases hnan : x.isNaN = true
  · have hzero : Whole (ofInt 0) 0 := ⟨rfl, rfl⟩
    have hsaturated : saturate low high 0 = 0 := saturate_eq_self (by omega) (by omega)
    rw [rounded_of_isNaN hnan, hsaturated, hzero.rounded, hsaturated]
  obtain ⟨hwhole, -⟩ := whole_rounded (Bool.eq_false_iff.mpr hnan)
  generalize rounded x = i at hwhole ⊢
  by_cases hbelow : i < -low
  · obtain ⟨j, hj, hbound⟩ := hleast
    rw [saturate_of_le (Int.le_of_lt hbelow), hbound.rounded, saturate_of_le hj]
  by_cases habove : high < i
  · obtain ⟨j, hj, hbound⟩ := hgreatest
    rw [saturate_of_ge (Int.le_of_lt habove), hbound.rounded, saturate_of_ge hj]
  · have hsaturated : saturate low high i = i := saturate_eq_self (by omega) (by omega)
    rw [hsaturated, (hwhole.ofInt (by omega)).rounded, hsaturated]

end PixelPipeline.Binary32
