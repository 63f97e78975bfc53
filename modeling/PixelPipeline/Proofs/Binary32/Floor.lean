import Mathlib.Data.Rat.Floor
import PixelPipeline.Proofs.Binary32.Error
import PixelPipeline.Proofs.Binary32.Ordered
import PixelPipeline.Proofs.Binary32.Saturation

/-!
# Floors and fractions

The floor of a number is the greatest integer that is not above it (`whole_floor`), and as a
word it is that integer, as far as words go (`toInt64_floor`).

What is left of a number without its floor is rounded.  It lies from zero to one
(`value_sub_floor`), but it can be one: a negative number that is nearer to zero than the numbers
below one are to each other is that far from its floor, and rounded up.  Every other number is
a multiple of that distance, or small enough, and keeps below one (`sub_floor_lt_one`).
-/

namespace PixelPipeline.Binary32

open Float.Model (UnpackedFloat)
open Float.Model.UnpackedFloat

variable {k : Nat} {x y : Binary32}

/-! ## Floors -/

/-- **The floor is the floor of the value.** -/
theorem whole_floor (hnumber : x.isNaN = false) : Whole (floor x) (x.value / unitCount) := by
  have hunit : (0 : Int) < unitCount := by decide
  by_cases hcoarse : x.isCoarse = true
  · have hsame : floor x = x := if_pos hcoarse
    rw [hsame]
    exact ⟨hnumber, (Int.ediv_mul_cancel (dvd_of_isCoarse hnumber hcoarse)).symm⟩
  · obtain ⟨j, hfine⟩ := exists_fine (Bool.eq_false_iff.mpr hcoarse)
    obtain ⟨hfloor, i, hvalue, hlow, hhigh⟩ := hfine.exists_floor hcoarse
    have hquotient : x.value / unitCount = i :=
      (Int.ediv_eq_iff_of_pos hunit).mpr ⟨hlow, hhigh⟩
    rw [hquotient]
    exact ⟨hfloor, hvalue⟩

/-- The floor of the rational value. -/
theorem floor_rational (x : Binary32) : ⌊rational x⌋ = x.value / unitCount := by
  unfold rational
  exact Rat.floor_intCast_div_natCast x.value unitCount

/-- **The word of the floor** stops at the bounds of words. -/
theorem toInt64_floor (hnumber : x.isNaN = false) :
    toInt64 (floor x) = saturate (2 ^ 63) (2 ^ 63 - 1) ⌊rational x⌋ := by
  unfold toInt64
  rw [toIntSaturating_saturates (by decide) (by decide), (whole_floor hnumber).truncated,
    floor_rational]

/-! ## Fractions -/

/-- Subtracting adds the negation. -/
theorem value_sub (x y : Binary32) : (x - y).value = (x + -y).value :=
  congrArg valueOf (unpacked_sub x y)

/-- A large number has no small digits. -/
theorem dvd_value (hx : x.isFinite = true) (hlarge : 2 ^ (k + 23) ≤ x.value.natAbs) :
    ((2 ^ k : Nat) : Int) ∣ x.value := by
  obtain ⟨s, n, e, hn, -, -, hvalue⟩ := exists_mantissa hx
  rw [← Int.dvd_natAbs]
  rw [hvalue, natAbs_apply] at hlarge ⊢
  unfold units at hlarge ⊢
  have hk : k ≤ (e + 149).toNat := by
    refine Nat.le_of_not_lt fun hlt => ?_
    have hpow : 2 ^ (e + 149).toNat ≤ 2 ^ (k - 1) := Nat.pow_le_pow_right (by decide) (by omega)
    have hsmall : n * 2 ^ (e + 149).toNat < 2 ^ 24 * 2 ^ (k - 1) :=
      Nat.mul_lt_mul_of_lt_of_le hn hpow (Nat.two_pow_pos _)
    have hsplit : k + 23 = 24 + (k - 1) := by omega
    rw [hsplit, Nat.pow_add] at hlarge
    exact absurd hsmall (Nat.not_lt_of_le hlarge)
  exact Int.natCast_dvd_natCast.mpr (Nat.dvd_mul_left_of_dvd (Nat.pow_dvd_pow 2 hk) n)

/-- The floor of a finite number is finite. -/
theorem isFinite_floor (hfinite : x.isFinite = true) : (floor x).isFinite = true := by
  obtain ⟨hnumber, hbelow⟩ := value_of_isFinite hfinite
  obtain ⟨hfloor, hlow, hhigh⟩ := floor_le hnumber
  exact isFinite_iff.mpr ⟨hfloor, by omega⟩

/-- **The fraction lies from zero to one.** -/
theorem value_sub_floor (hfinite : x.isFinite = true) :
    0 ≤ (x - floor x).value ∧ (x - floor x).value ≤ unitCount := by
  obtain ⟨-, hlow, hhigh⟩ := floor_le (isFinite_iff.mp hfinite).1
  have hfloor := isFinite_neg (isFinite_floor hfinite)
  rw [value_sub]
  constructor
  · refine le_value_add (z := zero) hfinite hfloor rfl ?_
    rw [value_zero, value_neg]
    omega
  · refine value_add_le (z := one) hfinite hfloor rfl ?_
    rw [value_one, value_neg]
    omega

/-- The greatest number below one. -/
def belowOne : Binary32 := ⟨0x3f7fffff⟩

/-- The number below one is less than one by a unit of its last digit. -/
theorem value_belowOne : belowOne.value = unitCount - (2 ^ 125 : Nat) := rfl

/-- **The fraction is less than one**, unless the number is negative and almost zero. -/
theorem sub_floor_lt_one (hfinite : x.isFinite = true)
    (hapart : 0 ≤ x.value ∨ x.value ≤ -(2 ^ 125 : Nat)) : (x - floor x).value < unitCount := by
  have hunit : (0 : Int) < unitCount := by decide
  have hnumber := (isFinite_iff.mp hfinite).1
  have hrest : x.value % unitCount ≤ unitCount - (2 ^ 125 : Nat) := by
    have hunits : unitCount = 2 ^ 24 * 2 ^ 125 := rfl
    rw [hunits]
    by_cases hlarge : 2 ^ (125 + 23) ≤ x.value.natAbs
    · -- the remainder is a multiple of the distance, too
      obtain ⟨c, hc⟩ := dvd_value hfinite hlarge
      omega
    · omega
  have hle : (x - floor x).value ≤ belowOne.value := by
    rw [value_sub]
    refine value_add_le hfinite (isFinite_neg (isFinite_floor hfinite)) rfl ?_
    have hsplit := Int.emod_add_mul_ediv x.value unitCount
    rw [value_neg, (whole_floor hnumber).value, value_belowOne, Int.mul_comm]
    omega
  rw [value_belowOne] at hle
  have hgap : (0 : Int) < (2 ^ 125 : Nat) := by decide
  omega

end PixelPipeline.Binary32
