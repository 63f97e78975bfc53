import PixelPipeline.Proofs.Binary32.Integral

/-!
# Numbers of bounded magnitude

`Within bound x` says that `x` is a number, neither NaN nor infinite, of at most that
magnitude.  Sums, differences and products of such numbers are such numbers, as long as
their bound is below `2 ^ 24`, and so is everything that is computed from them.

The one subtraction of arbitrary numbers is that of a floor.  What is left of a finite
number lies between zero and one (`within_sub_floor`); what is left of an infinity is NaN.
Clamping to the unit interval puts every number into it, and keeps NaN
(`inUnit_clampUnit_iff`).
-/

namespace PixelPipeline.Binary32

open Float.Model (UnpackedFloat Format)
open Float.Model.UnpackedFloat

variable {u v : UnpackedFloat} {bound bound' m : Nat} {e : Int} {s : Sign} {x y : Binary32}

/-! ## Bounds as values -/

/-- A number of at most the given magnitude. -/
structure Within (bound : Nat) (x : Binary32) : Prop where
  number : x.isNaN = false
  most : AtMost bound x.unpacked

theorem Within.mono (hx : Within bound x) (hle : bound ≤ bound') : Within bound' x :=
  ⟨hx.number, hx.most.mono hle⟩

/-- A number that is not NaN is not unpacked as NaN. -/
theorem unpacked_ne_notANumber (hnumber : x.isNaN = false) : x.unpacked ≠ .notANumber :=
  fun hunpack => by
    rw [isNaN_iff.mpr hunpack] at hnumber
    cases hnumber

/-- A number with a bound is not unpacked as NaN. -/
theorem Within.ne_notANumber (hx : Within bound x) : x.unpacked ≠ .notANumber :=
  unpacked_ne_notANumber hx.number

/-- A bound on a mantissa is one on the magnitude. -/
theorem fits_units (he : -149 ≤ e) : Fits bound m e ↔ units m e ≤ bound * unitCount :=
  fits_iff (k := 149) (by omega)

/-- A bound on a number is one on its value. -/
theorem atMost_of_valueOf (hu : Canonical u) (hbound : bound < 2 ^ 24)
    (hvalue : (valueOf u).natAbs ≤ bound * unitCount) : AtMost bound u := by
  cases u with
  | notANumber => trivial
  | infinity s =>
    rw [valueOf_infinity, natAbs_apply] at hvalue
    have hunit : 0 < unitCount := by decide
    have hlt : bound * unitCount < overflowCount :=
      Nat.mul_lt_mul_of_pos_right (Nat.lt_trans hbound (by decide)) hunit
    exact (Nat.not_le_of_lt hlt hvalue).elim
  | zero s => trivial
  | finite s m e hm =>
    rw [valueOf_finite, natAbs_apply] at hvalue
    exact (fits_units hu.2.1).mpr hvalue

/-- A bound on the value is a bound on the number. -/
theorem within_of_value (hnumber : x.isNaN = false) (hbound : bound < 2 ^ 24)
    (hvalue : x.value.natAbs ≤ bound * unitCount) : Within bound x :=
  ⟨hnumber, atMost_of_valueOf (canonical_of_isNaN hnumber) hbound hvalue⟩

/-- A magnitude that is at most one. -/
theorem within_of_le_abs (hle : le x.abs one = true) : Within 1 x := by
  have habs := (isNaN_of_le hle).1
  have hvalue := (le_iff habs rfl).mp hle
  have hnonneg := x.value_abs_nonneg
  have hsigned : x.value.natAbs = x.abs.value.natAbs := by
    rw [value_eq]
    split
    · exact Int.natAbs_neg _
    · rfl
  rw [value_one] at hvalue
  refine within_of_value (x.isNaN_abs.symm.trans habs) (by decide) ?_
  rw [hsigned, Nat.one_mul]
  omega

/-! ## The unit interval -/

/-- The number lies between zero and one. -/
structure InUnit (x : Binary32) : Prop where
  low : le zero x = true
  high : le x one = true

/-- A number of the unit interval is not NaN. -/
theorem InUnit.number (hx : InUnit x) : x.isNaN = false := (isNaN_of_le hx.low).2

/-- A number of the unit interval has magnitude at most one. -/
theorem InUnit.within (hx : InUnit x) : Within 1 x := by
  have hlow := (le_iff rfl hx.number).mp hx.low
  have hhigh := (le_iff hx.number rfl).mp hx.high
  rw [value_zero] at hlow
  rw [value_one] at hhigh
  refine within_of_value hx.number (by decide) ?_
  rw [Nat.one_mul]
  omega

/-- **Clamping puts numbers into the unit interval, and nothing else.** -/
theorem inUnit_clampUnit_iff : InUnit (clampUnit x) ↔ x.isNaN = false := by
  unfold clampUnit
  constructor
  · intro hunit
    refine Bool.eq_false_iff.mpr fun hnan => ?_
    have hnumber := hunit.number
    rw [clamp_of_isNaN hnan, hnan] at hnumber
    cases hnumber
  · intro hnumber
    obtain ⟨hclamped, hvalue⟩ := value_clamp isNaN_zero isNaN_one hnumber
    rw [value_zero, value_one] at hvalue
    have hunit : (0 : Int) ≤ unitCount := Int.natCast_nonneg _
    refine ⟨(le_iff rfl hclamped).mpr ?_, (le_iff hclamped rfl).mpr ?_⟩
    · rw [value_zero]
      omega
    · rw [value_one]
      omega

/-- A number of the unit interval stays. -/
theorem clampUnit_of_inUnit (hx : InUnit x) : clampUnit x = x := by
  have hlow := (le_iff rfl hx.number).mp hx.low
  have hhigh := (le_iff hx.number rfl).mp hx.high
  unfold clampUnit clamp
  simp only
  rw [if_neg fun hlt => Int.not_lt.mpr hlow ((lt_iff hx.number rfl).mp hlt),
    if_neg fun hlt => Int.not_lt.mpr hhigh ((lt_iff rfl hx.number).mp hlt)]

/-! ## Arithmetic -/

/-- What is packed is bounded if what was computed is. -/
theorem within_of_pack (hpack : x.unpacked = unpackBits (packBits u)) (hpos : 0 < bound)
    (hbound : bound < 2 ^ 24) (hnumber : u ≠ .notANumber) (hmost : AtMost bound u) :
    Within bound x :=
  ⟨isNaN_of_pack hpack hnumber, hpack ▸ atMost_unpack_pack hpos hbound hmost⟩

/-- Subtracting is adding the opposite. -/
theorem sub_eq_add_neg (u v : UnpackedFloat) :
    UnpackedFloat.sub Format.binary32 u v = UnpackedFloat.add Format.binary32 u v.neg := by
  cases u with
  | notANumber => rfl
  | infinity s => cases v <;> rfl
  | zero s => cases v <;> rfl
  | finite s m e hm =>
    cases v with
    | notANumber => rfl
    | infinity s' => rfl
    | zero s' => rfl
    | finite s' m' e' hm' =>
      change UnpackedFloat.normalize _ (_ - _) _ _ = UnpackedFloat.normalize _ (_ + _) _ _
      rw [Int.sub_eq_add_neg, apply_neg]

/-- Subtracting adds the negation. -/
theorem unpacked_sub (x y : Binary32) : (x - y).unpacked = (x + -y).unpacked := by
  have hsub : (x - y).unpacked
      = unpackBits (packBits (UnpackedFloat.sub Format.binary32 x.unpacked y.unpacked)) :=
    unpacked_lift (fun _ _ => rfl) (fun _ => rfl) (fun u => by cases u <;> rfl) x y
  rw [hsub, sub_eq_add_neg, unpacked_add, unpacked_neg]

/-- Sums of bounded numbers are numbers. -/
theorem add_ne_notANumber (hu : AtMost bound u) (hv : AtMost bound' v) (hu' : u ≠ .notANumber)
    (hv' : v ≠ .notANumber) : UnpackedFloat.add Format.binary32 u v ≠ .notANumber := by
  cases u with
  | notANumber => exact (hu' rfl).elim
  | infinity s => exact hu.elim
  | zero s =>
    cases v with
    | notANumber => exact (hv' rfl).elim
    | infinity s' => exact hv.elim
    | zero s' => cases s <;> cases s' <;> exact UnpackedFloat.noConfusion
    | finite s' m' e' hm' => exact UnpackedFloat.noConfusion
  | finite s m e hm =>
    cases v with
    | notANumber => exact (hv' rfl).elim
    | infinity s' => exact hv.elim
    | zero s' => exact UnpackedFloat.noConfusion
    | finite s' m' e' hm' => exact (signOf_normalize ..).1

/-- So are products. -/
theorem mul_ne_notANumber (hu : AtMost bound u) (hv : AtMost bound' v) (hu' : u ≠ .notANumber)
    (hv' : v ≠ .notANumber) : UnpackedFloat.mul Format.binary32 u v ≠ .notANumber := by
  cases u with
  | notANumber => exact (hu' rfl).elim
  | infinity s => exact hu.elim
  | zero s =>
    cases v with
    | notANumber => exact (hv' rfl).elim
    | infinity s' => exact hv.elim
    | zero s' => exact UnpackedFloat.noConfusion
    | finite s' m' e' hm' => exact UnpackedFloat.noConfusion
  | finite s m e hm =>
    cases v with
    | notANumber => exact (hv' rfl).elim
    | infinity s' => exact hv.elim
    | zero s' => exact UnpackedFloat.noConfusion
    | finite s' m' e' hm' => exact (signOf_roundWithAccuracy ..).1

namespace Within

/-- Negation keeps a bound. -/
theorem neg (hx : Within bound x) : Within bound (-x) :=
  ⟨x.isNaN_neg.trans hx.number, atMost_neg hx.most⟩

/-- Addition keeps to the sum of the bounds. -/
theorem add (hx : Within bound x) (hy : Within bound' y) (hpos : 0 < bound + bound')
    (hbound : bound + bound' < 2 ^ 24) : Within (bound + bound') (x + y) :=
  within_of_pack (unpacked_add x y) hpos hbound
    (add_ne_notANumber hx.most hy.most hx.ne_notANumber hy.ne_notANumber)
    (atMost_add hbound hx.most hy.most)

/-- Subtraction keeps to the sum of the bounds. -/
theorem sub (hx : Within bound x) (hy : Within bound' y) (hpos : 0 < bound + bound')
    (hbound : bound + bound' < 2 ^ 24) : Within (bound + bound') (x - y) :=
  within_of_pack ((unpacked_sub x y).trans (unpacked_add x (-y))) hpos hbound
    (add_ne_notANumber hx.most hy.neg.most hx.ne_notANumber hy.neg.ne_notANumber)
    (atMost_add hbound hx.most hy.neg.most)

/-- Multiplication keeps to the product of the bounds. -/
theorem mul (hx : Within bound x) (hy : Within bound' y) (hpos : 0 < bound * bound')
    (hbound : bound * bound' < 2 ^ 24) : Within (bound * bound') (x * y) :=
  within_of_pack (unpacked_mul x y) hpos hbound
    (mul_ne_notANumber hx.most hy.most hx.ne_notANumber hy.ne_notANumber)
    (atMost_mul hbound hx.most hy.most)

end Within

/-- An integer is within itself. -/
theorem within_ofNat {n : Nat} (hlt : n < 2 ^ 24) : Within n (ofNat n) := by
  refine within_of_value (ofNat_nonneg n).1 hlt ?_
  rw [value_ofNat hlt]
  exact Nat.le_refl _

/-! ## Numbers less their floors -/

/-- A factor can be taken out from under a sign. -/
theorem apply_mul (s : Sign) (k c : Nat) : s.apply ((k * c : Nat) : Int) = s.apply k * c := by
  cases s with
  | negative => exact (Int.neg_mul k c).symm
  | positive => rfl

/-- A sum is bounded by what the exact sum of the values is. -/
theorem atMost_add_of_valueOf (hbound : bound < 2 ^ 24) (hu : Canonical u) (hv : Canonical v)
    (hu' : ∀ s, u ≠ .infinity s) (hv' : ∀ s, v ≠ .infinity s)
    (hsum : (valueOf u + valueOf v).natAbs ≤ bound * unitCount) :
    UnpackedFloat.add Format.binary32 u v ≠ .notANumber ∧
      AtMost bound (UnpackedFloat.add Format.binary32 u v) := by
  cases u with
  | notANumber => exact hu.elim
  | infinity s => exact (hu' s rfl).elim
  | zero s =>
    rw [valueOf_zero, Int.zero_add] at hsum
    cases v with
    | notANumber => exact hv.elim
    | infinity s' => exact (hv' s' rfl).elim
    | zero s' =>
      cases s <;> cases s' <;> exact ⟨UnpackedFloat.noConfusion, trivial⟩
    | finite s' m' e' hm' => exact ⟨UnpackedFloat.noConfusion, atMost_of_valueOf hv hbound hsum⟩
  | finite s m e hm =>
    cases v with
    | notANumber => exact hv.elim
    | infinity s' => exact (hv' s' rfl).elim
    | zero s' =>
      rw [valueOf_zero, Int.add_zero] at hsum
      exact ⟨UnpackedFloat.noConfusion, atMost_of_valueOf hu hbound hsum⟩
    | finite s' m' e' hm' =>
      refine ⟨(signOf_normalize ..).1, atMost_normalize hbound ?_ .positive⟩
      have haligned : -149 ≤ min e e' := by
        have he := hu.2.1
        have he' := hv.2.1
        omega
      rw [fits_units haligned]
      -- the aligned mantissas, scaled, are the values
      have hscaled : ∀ (s : Sign) (k : Nat),
          s.apply (k : Int) * ((2 ^ (min e e' + 149).toNat : Nat) : Int)
            = s.apply (units k (min e e') : Nat) := fun s k => (apply_mul s k _).symm
      unfold units
      rw [← Int.natAbs_natCast (2 ^ (min e e' + 149).toNat), ← Int.natAbs_mul, Int.add_mul, hscaled,
        hscaled, units_shiftLeft (Int.min_le_left ..) haligned,
        units_shiftLeft (Int.min_le_right ..) haligned]
      exact hsum

/-- Neither an infinity nor NaN has a finite value below the overflow. -/
theorem ne_infinity_of_value (hvalue : x.value.natAbs < overflowCount) (s : Sign) :
    x.unpacked ≠ .infinity s := by
  intro hunpack
  unfold value at hvalue
  rw [hunpack, valueOf_infinity, natAbs_apply] at hvalue
  exact Nat.lt_irrefl _ hvalue

/-- A difference of values bounds the difference of finite numbers. -/
theorem within_sub_of_value (hbound : bound < 2 ^ 24) (hpos : 0 < bound) (hx : x.isNaN = false)
    (hy : y.isNaN = false) (hx' : x.value.natAbs < overflowCount)
    (hy' : y.value.natAbs < overflowCount)
    (hdifference : (x.value - y.value).natAbs ≤ bound * unitCount) : Within bound (x - y) := by
  have hneg : (-y).value.natAbs < overflowCount := by
    rw [value_neg, Int.natAbs_neg]
    exact hy'
  rw [Int.sub_eq_add_neg, ← value_neg] at hdifference
  obtain ⟨hnumber, hmost⟩ := atMost_add_of_valueOf hbound (canonical_of_isNaN hx)
    (canonical_of_isNaN (y.isNaN_neg.trans hy)) (ne_infinity_of_value hx')
    (ne_infinity_of_value hneg) hdifference
  exact within_of_pack ((unpacked_sub x y).trans (unpacked_add x (-y))) hpos hbound hnumber hmost

/-- The bits of infinities and NaNs. -/
theorem magnitudeBits_of_max (hmax : exponentField x.bits.toBitVec = 255#8) :
    x.magnitudeBits.toNat = 0x7f800000 + (fractionField x.bits.toBitVec).toNat := by
  have hexponent := toNat_exponentField x.bits.toBitVec
  have hfraction := toNat_fractionField x.bits.toBitVec
  rw [hmax, UInt32.toNat_toBitVec] at hexponent
  rw [UInt32.toNat_toBitVec] at hfraction
  rw [toNat_magnitudeBits]
  change 255 = _ at hexponent
  omega

/-- Finite numbers stay below the overflow by more than one. -/
theorem value_of_isFinite (hfinite : x.isFinite = true) :
    x.isNaN = false ∧ x.value.natAbs + unitCount < overflowCount := by
  have hbits : x.magnitudeBits.toNat < 0x7f800000 :=
    UInt32.lt_iff_toNat_lt.mp (of_decide_eq_true hfinite)
  have hexponent : exponentField x.bits.toBitVec ≠ 255#8 := by
    intro hmax
    have hmagnitude := magnitudeBits_of_max hmax
    omega
  have hnumber : x.isNaN = false := by
    refine Bool.eq_false_iff.mpr fun hnan => ?_
    have hlt : 0x7f800000 < x.magnitudeBits.toNat :=
      UInt32.lt_iff_toNat_lt.mp (of_decide_eq_true hnan)
    omega
  have hcanonical := canonical_of_isNaN hnumber
  refine ⟨hnumber, ?_⟩
  unfold value
  unfold unpacked at hcanonical ⊢
  rw [unpackBits_eq] at hcanonical ⊢
  obtain ⟨hmax, -⟩ | ⟨hmax, -⟩ | ⟨-, hzero⟩ | ⟨-, m, e, hm, hfinite⟩ :=
    number_cases (exponentField x.bits.toBitVec) (fractionField x.bits.toBitVec)
  · exact (hexponent hmax).elim
  · exact (hexponent hmax).elim
  · rw [hzero, valueOf_zero]
    decide
  · rw [hfinite] at hcanonical ⊢
    have hlargest : units m e ≤ (2 ^ 24 - 1) * 2 ^ 253 := by
      obtain ⟨hm, -, he, -⟩ := hcanonical
      exact Nat.mul_le_mul (by omega) (Nat.pow_le_pow_right (by decide) (by omega))
    have hgap : (2 ^ 24 - 1) * 2 ^ 253 + unitCount < overflowCount := by decide
    rw [valueOf_finite, natAbs_apply]
    exact Nat.lt_of_le_of_lt (Nat.add_le_add_right hlargest _) hgap

/-- **What is left of a finite number without its floor is at most one.** -/
theorem within_sub_floor (hfinite : x.isFinite = true) : Within 1 (x - floor x) := by
  obtain ⟨hnumber, hvalue⟩ := value_of_isFinite hfinite
  obtain ⟨hfloor, hlow, hhigh⟩ := floor_le hnumber
  refine within_sub_of_value (by decide) (by decide) hnumber hfloor ?_ ?_ ?_
  · omega
  · omega
  · rw [Nat.one_mul]
    omega

/-- Nothing is left of an infinity. -/
theorem isNaN_infinity_sub_floor :
    ((⟨0x7f800000⟩ : Binary32) - floor ⟨0x7f800000⟩).isNaN = true := rfl

/-- A number that is not finite has the magnitude of infinity. -/
theorem abs_of_not_isFinite (hnumber : x.isNaN = false) (hlarge : ¬ x.isFinite = true) :
    x.abs = ⟨0x7f800000⟩ := by
  have hle : ¬ x.magnitudeBits < 0x7f800000 := of_decide_eq_false (Bool.eq_false_iff.mpr hlarge)
  have hge : ¬ 0x7f800000 < x.magnitudeBits := of_decide_eq_false hnumber
  rw [UInt32.lt_iff_toNat_lt] at hle hge
  have hmagnitude : x.magnitudeBits = 0x7f800000 := UInt32.toNat_inj.mp (by omega)
  exact congrArg Binary32.mk hmagnitude

/-- A number that is neither negative nor infinite is finite. -/
theorem isFinite_of_nonneg (hnumber : x.isNaN = false) (hnonneg : 0 ≤ x.value)
    (hinfinite : x ≠ ⟨0x7f800000⟩) : x.isFinite = true := by
  refine Decidable.byContradiction fun hlarge => hinfinite ?_
  have habs := abs_of_not_isFinite hnumber hlarge
  have hmagnitude : x.magnitudeBits = 0x7f800000 := congrArg bits habs
  have hsign : ¬ x.signBit = true := by
    intro hsign
    have hvalue := x.value_eq
    have hoverflow : (⟨0x7f800000⟩ : Binary32).value = overflowCount := rfl
    have hpos : (0 : Int) < overflowCount := by decide
    rw [if_pos hsign, habs, hoverflow] at hvalue
    omega
  have hshift : x.bits.toNat / 2 ^ 31 = 0 := by
    have hclear : x.bits >>> 31 = 0 := by
      unfold signBit at hsign
      simpa using hsign
    have hnat := congrArg UInt32.toNat hclear
    rw [UInt32.toNat_shiftRight, Nat.shiftRight_eq_div_pow] at hnat
    exact hnat
  have hlow := congrArg UInt32.toNat hmagnitude
  rw [toNat_magnitudeBits] at hlow
  change _ = 0x7f800000 at hlow
  have hbits : x.bits = 0x7f800000 := UInt32.toNat_inj.mp (by
    change _ = 0x7f800000
    omega)
  exact congrArg Binary32.mk hbits

/-- The larger of a number and zero is finite, unless the number is infinite. -/
theorem isFinite_larger_zero (hinfinite : x ≠ ⟨0x7f800000⟩) : (larger x zero).isFinite = true := by
  unfold larger
  by_cases hignored : (x.isNaN || le x zero) = true
  · rw [if_pos hignored]
    rfl
  · rw [if_neg hignored]
    obtain ⟨hnumber, hgreater⟩ := Bool.or_eq_false_iff.mp (Bool.eq_false_iff.mpr hignored)
    refine isFinite_of_nonneg hnumber (Int.le_of_not_gt fun hlt => ?_) hinfinite
    have hle : le x zero = true := (le_iff hnumber rfl).mpr (Int.le_of_lt hlt)
    rw [hle] at hgreater
    cases hgreater

/-! ## NaN -/

/-- An operation on NaN gives NaN. -/
theorem isNaN_lift {op : Float32 → Float32 → Float32} (hnan : x.isNaN = true ∨ y.isNaN = true) :
    (lift op x y).isNaN = true := by
  unfold lift
  by_cases hx : x.isNaN = true
  · rw [if_pos hx]
    exact isNaN_quiet hx
  · have hy := hnan.resolve_left hx
    rw [if_neg hx, if_pos hy]
    exact isNaN_quiet hy

end PixelPipeline.Binary32
