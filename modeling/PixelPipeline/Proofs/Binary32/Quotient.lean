import PixelPipeline.Proofs.Binary32.Within

/-!
# Quotients by the greatest integer

Let `g = 2 ^ 24 - 1`, the greatest integer whose digits all fit a mantissa.  A full
mantissa `m` divided by `g` is `m` with a remainder of more than half, so it rounds up to
`m + 1` (`div_greatest`).  Multiplied by `g` again, `m + 1` falls short of the next
mantissa by less than half, so it rounds back to `m` (`mul_greatest`): the two errors
undo each other, and an integer that is divided by `g` and multiplied by it is itself
(`unpacked_div_mul`).  On the way it stays between zero and one, so clamping does not
touch it (`inUnit_div`), and rounding to an integer finds it there already
(`value_roundHalfAway_integral`).

* `Component.toNat_roundUnorm_div` — so a code that was divided by the greatest one is
  written as itself.
-/

namespace PixelPipeline

namespace Binary32

open Float.Model (UnpackedFloat Format totalExponent)
open Float.Model.UnpackedFloat

variable {m n : Nat} {e : Int} {s : Sign} {x y : Binary32}

/-! ## One quotient -/

/-- Division divides the unpacked numbers and packs the result. -/
theorem unpacked_div (x y : Binary32) :
    (x / y).unpacked
      = unpackBits (packBits (UnpackedFloat.div Format.binary32 x.unpacked y.unpacked)) :=
  unpacked_lift (fun _ _ => rfl) (fun _ => rfl) (fun u => by cases u <;> rfl) x y

/-- A full mantissa has the exponent that the format asks for. -/
theorem targetExponent_full (hlow : 2 ^ 23 ≤ m) (hhigh : m < 2 ^ 24) (he : -149 ≤ e) :
    Format.binary32.targetExponent (totalExponent m e) = e := by
  have hlog : m.log2 = 23 := (Nat.log2_eq_iff (by omega)).mpr ⟨hlow, hhigh⟩
  change max ((m.log2 : Int) + 1 + e - 24) (-149) = e
  omega

/-- **A full mantissa divided by the greatest integer** rounds up. -/
theorem div_greatest (s : Sign) {hm : 0 < m} (hlow : 2 ^ 23 ≤ m) (hhigh : m < 2 ^ 24 - 1)
    (he : -125 ≤ e) :
    UnpackedFloat.div Format.binary32 (.finite s m e hm) (integral .positive (2 ^ 24 - 1))
      = .finite s (m + 1) (e - 24) (Nat.succ_pos m) := by
  have hlog : m.log2 = 23 := (Nat.log2_eq_iff (by omega)).mpr ⟨hlow, by omega⟩
  have hgreatest : integral .positive (2 ^ 24 - 1) = .finite .positive (2 ^ 24 - 1) 0 (by decide) :=
    rfl
  have hsign : s / .positive = s := by cases s <;> rfl
  have hcore : divCore Format.binary32 m e (2 ^ 24 - 1) 0 = (m, e - 24, .inexact .gt) := by
    have htarget : min (e - 0) (Format.binary32.targetExponent
        (totalExponent m e - totalExponent (2 ^ 24 - 1) 0)) = e - 24 := by
      change min (e - 0) (max ((m.log2 : Int) + 1 + e - 24 - 24) (-149)) = _
      omega
    have hshift : (e - 0 - (e - 24)).toNat = 24 := by omega
    have hquotient : m <<< 24 / (2 ^ 24 - 1) = m := by
      rw [Nat.shiftLeft_eq]
      omega
    have hremainder : m <<< 24 % (2 ^ 24 - 1) = m := by
      rw [Nat.shiftLeft_eq]
      omega
    have haccuracy : accuracyOfFraction m (2 ^ 24 - 1) = .inexact .gt := by
      unfold accuracyOfFraction
      rw [if_neg (by omega), Nat.compare_eq_gt.mpr (by omega)]
    unfold divCore
    simp only [htarget, hshift, hquotient, hremainder, haccuracy]
  rw [hgreatest]
  change (match divCore Format.binary32 m e (2 ^ 24 - 1) 0 with
    | (m, e, a) => roundWithAccuracy Format.binary32 (s / Sign.positive) m e a) = _
  rw [hcore, hsign]
  refine (roundWithAccuracy_eq 0 (Nat.succ_pos m) ?_ rfl ?_).trans
    (finite_congr rfl (Int.add_zero _))
  · exact (targetExponent_full hlow (by omega) (by omega)).trans (Int.add_zero _).symm
  · exact targetExponent_full (by omega) (by omega) (by omega)

/-- Less than half is cut off. -/
theorem roundedMantissa_of_lt (hlow : m % 2 ^ (n + 1) < 2 ^ n) :
    (ExtendedMantissa.ofMantissaAndAccuracy m .exact >>> (n + 1)).roundedMantissa
      = m / 2 ^ (n + 1) := by
  have hstep : ExtendedMantissa.ofMantissaAndAccuracy m .exact >>> (n + 1)
      = (ExtendedMantissa.ofMantissaAndAccuracy m .exact >>> n).shiftRightOne := rfl
  have hround : (ExtendedMantissa.ofMantissaAndAccuracy m .exact >>> (n + 1)).roundBit = false := by
    have hmod : m % 2 ^ (n + 1) = m % 2 ^ n + 2 ^ n * (m / 2 ^ n % 2) := Nat.mod_pow_succ
    have heven : m / 2 ^ n % 2 = 0 := by
      rcases Nat.mod_two_eq_zero_or_one (m / 2 ^ n) with heven | hodd
      · exact heven
      · rw [hmod, hodd] at hlow
        omega
    rw [hstep]
    simp only [ExtendedMantissa.shiftRightOne, (truncates_shift m n).mantissa, heven]
    rfl
  have hmantissa := (truncates_shift m (n + 1)).mantissa
  generalize ExtendedMantissa.ofMantissaAndAccuracy m .exact >>> (n + 1) = em
    at hround hmantissa ⊢
  obtain ⟨mantissa, roundBit, stickyBit⟩ := em
  obtain rfl : roundBit = false := hround
  rw [← hmantissa]
  cases stickyBit <;> rfl

/-- **The quotient multiplied by the greatest integer** rounds back. -/
theorem mul_greatest (s : Sign) (hm : 0 < m) (hlow : 2 ^ 23 ≤ m) (hhigh : m < 2 ^ 24 - 1)
    (he : -125 ≤ e) :
    UnpackedFloat.mul Format.binary32 (.finite s (m + 1) (e - 24) (Nat.succ_pos m))
      (integral .positive (2 ^ 24 - 1)) = .finite s m e hm := by
  have hgreatest : integral .positive (2 ^ 24 - 1) = .finite .positive (2 ^ 24 - 1) 0 (by decide) :=
    rfl
  have hsign : s * .positive = s := by cases s <;> rfl
  have hback : e - 24 + 0 + ((24 : Nat) : Int) = e := by omega
  have hlog : ((m + 1) * (2 ^ 24 - 1)).log2 = 47 :=
    (Nat.log2_eq_iff (by omega)).mpr ⟨by omega, by omega⟩
  rw [hgreatest]
  change roundWithAccuracy Format.binary32 (s * Sign.positive) ((m + 1) * (2 ^ 24 - 1)) (e - 24 + 0)
    .exact = _
  rw [hsign]
  refine (roundWithAccuracy_eq 24 hm ?_ ?_ ?_).trans (finite_congr rfl hback)
  · rw [hback]
    change max ((((m + 1) * (2 ^ 24 - 1)).log2 : Int) + 1 + (e - 24 + 0) - 24) (-149) = e
    rw [hlog]
    omega
  · obtain ⟨hquotient, hremainder⟩ := (Nat.div_mod_unique (Nat.two_pow_pos 24)).mpr
      (⟨by omega, by omega⟩ : 2 ^ 24 - 1 - m + 2 ^ 24 * m = (m + 1) * (2 ^ 24 - 1) ∧ _)
    exact (roundedMantissa_of_lt (n := 23) (by omega)).trans hquotient
  · rw [hback]
    exact targetExponent_full hlow (by omega) (by omega)

/-! ## Integers and back -/

/-- Only the greatest integer has a mantissa of ones. -/
theorem full_lt_greatest (hn : 0 < n) (hlt : n < 2 ^ 24 - 1) :
    n * 2 ^ (23 - n.log2) < 2 ^ 24 - 1 := by
  obtain ⟨-, hhigh⟩ := integral_full hn (by omega)
  cases hk : 23 - n.log2 with
  | zero => rwa [Nat.pow_zero, Nat.mul_one]
  | succ k =>
    rw [hk, Nat.pow_succ, ← Nat.mul_assoc] at hhigh
    rw [Nat.pow_succ, ← Nat.mul_assoc]
    omega

/-- The quotient of an integer, which is zero or below one. -/
theorem unpacked_div_greatest (hn : 0 < n) (hlt : n < 2 ^ 24 - 1) :
    (ofNat n / ofNat (2 ^ 24 - 1)).unpacked
      = .finite .positive (n * 2 ^ (23 - n.log2) + 1) (n.log2 - 47) (Nat.succ_pos _) := by
  have hlog : n.log2 < 24 := (Nat.log2_lt (Nat.ne_of_gt hn)).mpr (by omega)
  have hbelow := full_lt_greatest hn hlt
  obtain ⟨hlow, -⟩ := integral_full hn (by omega)
  have hexponent : (n.log2 : Int) - 23 - 24 = n.log2 - 47 := by omega
  rw [unpacked_div, unpacked_ofNat (by omega), unpacked_ofNat (by decide), integral_pos _ hn,
    div_greatest _ hlow hbelow (by omega), hexponent,
    unpack_pack_full (by omega) (by omega) (by omega) (by omega)]

/-- **An integer divided by the greatest one and multiplied by it is itself.** -/
theorem unpacked_div_mul (hlt : n < 2 ^ 24) :
    (ofNat n / ofNat (2 ^ 24 - 1) * ofNat (2 ^ 24 - 1)).unpacked = integral .positive n := by
  by_cases hgreatest : n = 2 ^ 24 - 1
  · subst hgreatest
    rfl
  by_cases hn : 0 < n
  · have hlog : n.log2 < 24 := (Nat.log2_lt (Nat.ne_of_gt hn)).mpr hlt
    have hbelow := full_lt_greatest hn (by omega)
    obtain ⟨hlow, hhigh⟩ := integral_full hn hlt
    have hexponent : (n.log2 : Int) - 47 = n.log2 - 23 - 24 := by omega
    have hquotient := unpacked_div_greatest hn (by omega)
    rw [hexponent] at hquotient
    rw [unpacked_mul, hquotient, unpacked_ofNat (by decide),
      mul_greatest _ (Nat.mul_pos hn (Nat.two_pow_pos _)) hlow hbelow (by omega),
      unpack_pack_full hlow hhigh (by omega) (by omega), integral_pos _ hn]
  · obtain rfl : n = 0 := by omega
    rfl

/-- A finite number is not NaN. -/
theorem isNaN_of_finite {hm : 0 < m} (hunpack : x.unpacked = .finite s m e hm) :
    x.isNaN = false :=
  Bool.eq_false_iff.mpr fun hnan => by
    rw [isNaN_iff.mp hnan] at hunpack
    cases hunpack

/-- The quotient lies between zero and one. -/
theorem inUnit_div (hlt : n < 2 ^ 24) : InUnit (ofNat n / ofNat (2 ^ 24 - 1)) := by
  by_cases hgreatest : n = 2 ^ 24 - 1
  · subst hgreatest
    exact ⟨rfl, rfl⟩
  by_cases hn : 0 < n
  · have hlog : n.log2 < 24 := (Nat.log2_lt (Nat.ne_of_gt hn)).mpr hlt
    have hbelow := full_lt_greatest hn (by omega)
    have hquotient := unpacked_div_greatest hn (by omega)
    have hnumber := isNaN_of_finite hquotient
    have hvalue : (ofNat n / ofNat (2 ^ 24 - 1)).value
        = (units (n * 2 ^ (23 - n.log2) + 1) (n.log2 - 47) : Nat) := by
      unfold value
      rw [hquotient]
      rfl
    have hle : units (n * 2 ^ (23 - n.log2) + 1) (n.log2 - 47) ≤ unitCount :=
      calc units (n * 2 ^ (23 - n.log2) + 1) (n.log2 - 47)
          ≤ 2 ^ 24 * 2 ^ 125 :=
            Nat.mul_le_mul (by omega) (Nat.pow_le_pow_right (by decide) (by omega))
        _ = unitCount := rfl
    refine ⟨(le_iff rfl hnumber).mpr ?_, (le_iff hnumber rfl).mpr ?_⟩
    · rw [value_zero, hvalue]
      exact Int.natCast_nonneg _
    · rw [value_one, hvalue]
      exact Int.ofNat_le.mpr hle
  · obtain rfl : n = 0 := by omega
    exact ⟨rfl, rfl⟩

/-! ## Rounding to an integer -/

/-- An integer without a sign is not negative. -/
theorem signBit_of_integral (hx : x.unpacked = integral .positive n) : x.signBit = false := by
  cases hsign : x.signBit with
  | false => rfl
  | true =>
    have hsigned : signOf x.unpacked = .positive := by
      rw [hx]
      by_cases hn : 0 < n
      · rw [integral_pos _ hn]
        rfl
      · obtain rfl : n = 0 := by omega
        rfl
    have hnumber : x.unpacked ≠ .notANumber :=
      unpacked_ne_notANumber (isNaN_of_integral hx)
    unfold unpacked at hsigned hnumber
    rw [unpackBits_eq, signField_of_signBit, if_pos hsign] at hsigned hnumber
    obtain ⟨-, -, hnan⟩ | ⟨-, -, hinfinite⟩ | ⟨-, hzero⟩ | ⟨-, m', e', hm, hfinite⟩ :=
      number_cases (exponentField x.bits.toBitVec) (fractionField x.bits.toBitVec)
    · exact (hnumber (hnan _)).elim
    · rw [hinfinite] at hsigned
      cases hsigned
    · rw [hzero] at hsigned
      cases hsigned
    · rw [hfinite] at hsigned
      cases hsigned

/-- The absolute value of a positive integer is the integer. -/
theorem unpacked_abs_of_integral (hx : x.unpacked = integral .positive n) :
    x.abs.unpacked = integral .positive n := by
  rw [unpacked_abs, ← hx]
  unfold unpacked
  rw [unpackBits_eq, signField_of_signBit, if_neg (Bool.eq_false_iff.mp (signBit_of_integral hx))]

/-- An integer less itself. -/
theorem unpacked_sub_of_integral (hx : x.unpacked = integral .positive n)
    (hy : y.unpacked = integral .positive n) : (x - y).unpacked = .zero .positive := by
  rw [unpacked_sub, unpacked_add, unpacked_neg, hx, hy]
  by_cases hn : 0 < n
  · have hzero : ∀ k : Int, UnpackedFloat.normalize Format.binary32 (k + -k)
        (min ((n.log2 : Int) - 23) (n.log2 - 23)) .positive = .zero .positive := fun k => by
      rw [Int.add_right_neg]
      rfl
    rw [integral_pos _ hn]
    exact congrArg (fun u => unpackBits (packBits u)) (hzero _)
  · obtain rfl : n = 0 := by omega
    rfl

/-- **An integer is rounded to itself.** -/
theorem value_roundHalfAway_integral (hx : x.unpacked = integral .positive n) (hlt : n < 2 ^ 24) :
    (roundHalfAway x).isNaN = false ∧ (roundHalfAway x).value = (n * unitCount : Nat) := by
  have hvalue : ∀ {y : Binary32}, y.unpacked = integral .positive n →
      y.value = (n * unitCount : Nat) := by
    intro y hy
    unfold value
    rw [hy, valueOf_integral _ hlt]
    rfl
  unfold roundHalfAway
  by_cases hcoarse : x.isCoarse = true
  · rw [if_pos hcoarse]
    exact ⟨isNaN_of_integral hx, hvalue hx⟩
  obtain ⟨k, hfine⟩ := exists_fine (Bool.eq_false_iff.mpr hcoarse)
  have habs := unpacked_abs_of_integral hx
  have hk : k = n := by
    have hlow := hfine.low
    have hhigh := hfine.high
    rw [hvalue habs] at hlow hhigh
    have hunit : 0 < unitCount := by decide
    have hle := Nat.le_of_mul_le_mul_right (Int.ofNat_le.mp hlow) hunit
    have hgt := Nat.lt_of_mul_lt_mul_right (Int.ofNat_lt.mp hhigh)
    omega
  subst hk
  have hhalf : lt (x.abs - integralPart x.abs) half = true := by
    rw [lt_eq, unpacked_sub_of_integral habs hfine.whole]
    rfl
  rw [if_neg hcoarse]
  simp only
  rw [if_pos hhalf]
  unfold withSignOf
  rw [if_neg (Bool.eq_false_iff.mp (signBit_of_integral hx))]
  exact ⟨isNaN_of_integral hfine.whole, hfine.value_whole⟩

end Binary32

/-- **A code that was divided by the greatest one rounds back to itself.** -/
theorem Component.toNat_roundUnorm_div {n : Nat} (hlt : n < 2 ^ 24) :
    (roundUnorm (Binary32.ofNat n / Binary32.ofNat (2 ^ 24 - 1))
      (Binary32.ofNat (2 ^ 24 - 1))).toUInt32.toNat = n := by
  have hunit : (0 : Int) < Binary32.unitCount := by decide
  unfold roundUnorm
  rw [Binary32.clampUnit_of_inUnit (Binary32.inUnit_div hlt)]
  obtain ⟨hnumber, hvalue⟩ :=
    Binary32.value_roundHalfAway_integral (Binary32.unpacked_div_mul hlt) hlt
  rw [Binary32.toNat_toUInt32 hnumber, hvalue, Int.natCast_mul,
    Int.mul_ediv_cancel _ (Int.ne_of_gt hunit)]
  omega

end PixelPipeline
