import PixelPipeline.Proofs.Binary32.Value

/-!
# Integers are numbers

Rounding keeps a mantissa whose low digits are zero, so integers below `2 ^ 24` are
converted, and added, without an error (`unpacked_ofNat`, `unpacked_add_one`).  The
integral parts that `floor` and `roundHalfAway` go through are such integers: a number
lies at most one above its floor (`floor_le`), and rounding to the nearest integer does
not cross an integer (`le_roundHalfAway`).
-/

namespace PixelPipeline.Binary32

open Float.Model (UnpackedFloat Format totalExponent)
open Float.Model.UnpackedFloat

variable {u : UnpackedFloat} {m m' n : Nat} {e e' : Int} {s : Sign} {x y : Binary32}

/-! ## Exact rounding -/

/-- A shift to the left adds to the number of digits. -/
theorem log2_mul_two_pow (hm : m ≠ 0) (k : Nat) : (m * 2 ^ k).log2 = m.log2 + k := by
  induction k with
  | zero => rw [Nat.pow_zero, Nat.mul_one, Nat.add_zero]
  | succ k ih =>
    have hne : m * 2 ^ k ≠ 0 := Nat.mul_ne_zero hm (Nat.ne_of_gt (Nat.two_pow_pos k))
    rw [Nat.pow_succ', Nat.mul_left_comm, Nat.log2_two_mul hne, ih, Nat.add_assoc]

/-- A truncated mantissa that loses nothing is not rounded. -/
theorem Truncates.roundedMantissa_eq {em : ExtendedMantissa} (htruncates : Truncates m n em)
    (hexact : m % 2 ^ n = 0) : em.roundedMantissa = m / 2 ^ n := by
  obtain ⟨hmantissa, hresidue⟩ := htruncates
  obtain ⟨mantissa, roundBit, stickyBit⟩ := em
  have hclear : roundBit = false ∧ stickyBit = false := by
    cases roundBit with
    | true => exact (hresidue (.inl rfl) hexact).elim
    | false =>
      cases stickyBit with
      | true => exact (hresidue (.inr rfl) hexact).elim
      | false => exact ⟨rfl, rfl⟩
  obtain ⟨rfl, rfl⟩ := hclear
  exact hmantissa

/-- A mantissa is shifted by as much as its exponent falls short of the one asked for. -/
theorem shiftToTargetExponent_eq {a : Accuracy} (k : Nat)
    (htarget : Format.binary32.targetExponent (totalExponent m e) = e + k) :
    shiftToTargetExponent Format.binary32 m e a
      = (ExtendedMantissa.ofMantissaAndAccuracy m a >>> k, e + k) := by
  have hcut : (e + k - e).toNat = k := by omega
  unfold shiftToTargetExponent shiftToExponent
  simp only [htarget, hcut]

/-- Rounding to a mantissa that has its exponent already. -/
theorem roundWithAccuracy_eq {a : Accuracy} (k : Nat) (hm' : 0 < m')
    (htarget : Format.binary32.targetExponent (totalExponent m e) = e + k)
    (hrounded : (ExtendedMantissa.ofMantissaAndAccuracy m a >>> k).roundedMantissa = m')
    (hfinal : Format.binary32.targetExponent (totalExponent m' (e + k)) = e + k) :
    roundWithAccuracy Format.binary32 s m e a = .finite s m' (e + k) hm' := by
  have hsecond : shiftToTargetExponent Format.binary32 m' (e + k) .exact
      = (ExtendedMantissa.ofMantissaAndAccuracy m' .exact >>> 0, e + k + (0 : Nat)) :=
    shiftToTargetExponent_eq 0 (hfinal.trans (Int.add_zero _).symm)
  unfold roundWithAccuracy
  rw [shiftToTargetExponent_eq k htarget]
  dsimp only
  rw [hrounded, hsecond, Int.natCast_zero, Int.add_zero]
  exact dif_neg (Nat.ne_of_gt hm')

/-- Rounding keeps a mantissa whose low digits are zero. -/
theorem roundWithAccuracy_exact (k : Nat) (hm : 0 < m)
    (htarget : Format.binary32.targetExponent (totalExponent (m * 2 ^ k) e) = e + k)
    (hfinal : Format.binary32.targetExponent (totalExponent m (e + k)) = e + k) :
    roundWithAccuracy Format.binary32 s (m * 2 ^ k) e .exact = .finite s m (e + k) hm := by
  refine roundWithAccuracy_eq k hm htarget ?_ hfinal
  rw [(truncates_shift _ k).roundedMantissa_eq (Nat.mul_mod_left _ _),
    Nat.mul_div_cancel _ (Nat.two_pow_pos k)]

/-- A number in canonical form has the exponent that the format asks for. -/
theorem targetExponent_canonical {hm : 0 < m} (hcanonical : Canonical (.finite s m e hm)) :
    Format.binary32.targetExponent (totalExponent m e) = e := by
  obtain ⟨hlt, hlow, -, hfull⟩ := hcanonical
  have hsmall : m.log2 < 24 := (Nat.log2_lt (Nat.ne_of_gt hm)).mpr hlt
  change max ((m.log2 : Int) + 1 + e - 24) (-149) = e
  rcases hfull with hfull | rfl
  · have hlog : m.log2 = 23 := (Nat.log2_eq_iff (Nat.ne_of_gt hm)).mpr ⟨hfull, hlt⟩
    omega
  · omega

/-- **Numbers of the format are not rounded**, whatever mantissa they are written with. -/
theorem round_canonical (hm : 0 < m) (he : -149 ≤ e) {hm' : 0 < m'}
    (hcanonical : Canonical (.finite s m' e' hm')) (hunits : units m e = units m' e') :
    UnpackedFloat.round Format.binary32 s m e = .finite s m' e' hm' := by
  have he' : -149 ≤ e' := hcanonical.2.1
  have htarget := targetExponent_canonical hcanonical
  unfold units at hunits
  have hlog : (m.log2 : Int) + e = m'.log2 + e' := by
    have hboth := congrArg Nat.log2 hunits
    rw [log2_mul_two_pow (Nat.ne_of_gt hm), log2_mul_two_pow (Nat.ne_of_gt hm')] at hboth
    omega
  have htotal : totalExponent m e = totalExponent m' e' := by
    unfold totalExponent
    omega
  -- where rounding starts, and how many digits it cuts off
  obtain ⟨start, hstart⟩ : ∃ start : Int, start = min e e' := ⟨_, rfl⟩
  obtain ⟨cut, hcut⟩ : ∃ cut : Nat, start + cut = e' := ⟨(e' - start).toNat, by omega⟩
  have hback : e - ((e - e').toNat : Int) = start := by omega
  have haligned : m <<< (e - e').toNat = m' * 2 ^ cut := by
    have hpow : (e + 149).toNat = (e - e').toNat + (start + 149).toNat := by omega
    have hpow' : (e' + 149).toNat = cut + (start + 149).toNat := by omega
    rw [hpow, hpow', Nat.pow_add, Nat.pow_add, ← Nat.mul_assoc, ← Nat.mul_assoc] at hunits
    rw [Nat.shiftLeft_eq]
    exact Nat.eq_of_mul_eq_mul_right (Nat.two_pow_pos (start + 149).toNat) hunits
  have hfirst : Format.binary32.targetExponent (totalExponent (m' * 2 ^ cut) start)
      = start + cut := by
    have hsame : totalExponent (m' * 2 ^ cut) start = totalExponent m' e' := by
      unfold totalExponent
      rw [log2_mul_two_pow (Nat.ne_of_gt hm')]
      omega
    rw [hsame, hcut, htarget]
  have hsecond : Format.binary32.targetExponent (totalExponent m' (start + cut))
      = start + cut := by rw [hcut, htarget]
  unfold UnpackedFloat.round decreaseExponent
  dsimp only
  rw [htotal, htarget, haligned, hback, roundWithAccuracy_exact cut hm' hfirst hsecond]
  exact finite_congr rfl hcut

/-- An integer below `2 ^ 24` in canonical form. -/
def integral (s : Sign) (n : Nat) : UnpackedFloat :=
  if hn : 0 < n then
    .finite s (n * 2 ^ (23 - n.log2)) (n.log2 - 23) (Nat.mul_pos hn (Nat.two_pow_pos _))
  else .zero s

/-- A positive integer in canonical form has a full mantissa. -/
theorem integral_pos (s : Sign) (hn : 0 < n) : integral s n
    = .finite s (n * 2 ^ (23 - n.log2)) (n.log2 - 23) (Nat.mul_pos hn (Nat.two_pow_pos _)) :=
  dif_pos hn

/-- An integer below `2 ^ 24` is that many ones. -/
theorem units_integral (hn : 0 < n) (hlt : n < 2 ^ 24) :
    units (n * 2 ^ (23 - n.log2)) (n.log2 - 23) = n * unitCount := by
  have hlog : n.log2 < 24 := (Nat.log2_lt (Nat.ne_of_gt hn)).mpr hlt
  have hpow : (23 - n.log2) + ((n.log2 : Int) - 23 + 149).toNat = 149 := by omega
  unfold units unitCount
  rw [Nat.mul_assoc, ← Nat.pow_add, hpow]

/-- The canonical form of an integer has the value of the integer. -/
theorem valueOf_integral (s : Sign) (hlt : n < 2 ^ 24) :
    valueOf (integral s n) = s.apply (n * unitCount : Nat) := by
  by_cases hn : 0 < n
  · rw [integral_pos s hn, valueOf_finite, units_integral hn hlt]
  · obtain rfl : n = 0 := by omega
    rw [Nat.zero_mul]
    cases s <;> rfl

/-- An integer has a full mantissa. -/
theorem integral_full (hn : 0 < n) (hlt : n < 2 ^ 24) :
    2 ^ 23 ≤ n * 2 ^ (23 - n.log2) ∧ n * 2 ^ (23 - n.log2) < 2 ^ 24 := by
  have hlog : n.log2 < 24 := (Nat.log2_lt (Nat.ne_of_gt hn)).mpr hlt
  have hlogWhole : (n * 2 ^ (23 - n.log2)).log2 = 23 := by
    rw [log2_mul_two_pow (Nat.ne_of_gt hn)]
    omega
  exact (Nat.log2_eq_iff (Nat.ne_of_gt (Nat.mul_pos hn (Nat.two_pow_pos _)))).mp hlogWhole

/-- Integers below `2 ^ 24` are in canonical form. -/
theorem canonical_integral (s : Sign) (hlt : n < 2 ^ 24) : Canonical (integral s n) := by
  by_cases hn : 0 < n
  · have hlog : n.log2 < 24 := (Nat.log2_lt (Nat.ne_of_gt hn)).mpr hlt
    obtain ⟨hlow, hhigh⟩ := integral_full hn hlt
    rw [integral_pos s hn]
    exact ⟨hhigh, by omega, by omega, .inl hlow⟩
  · obtain rfl : n = 0 := by omega
    trivial

/-- **Integers below `2 ^ 24` are not rounded.** -/
theorem round_integral (hm : 0 < m) (he : -149 ≤ e) (hn : 0 < n) (hlt : n < 2 ^ 24)
    (hunits : units m e = n * unitCount) :
    UnpackedFloat.round Format.binary32 s m e = integral s n := by
  have hcanonical := canonical_integral s hlt
  rw [integral_pos s hn] at hcanonical ⊢
  exact round_canonical hm he hcanonical (hunits.trans (units_integral hn hlt).symm)

/-- A full mantissa is packed without a loss. -/
theorem unpack_pack_full {hm : 0 < m} (hlow : 2 ^ 23 ≤ m) (hhigh : m < 2 ^ 24)
    (he : -149 ≤ e) (he' : e ≤ 104) :
    unpackBits (packBits (.finite s m e hm)) = .finite s m e hm := by
  have hexponent : (BitVec.ofNat 8 (e + 150).toNat).toNat = (e + 150).toNat := by
    rw [BitVec.toNat_ofNat]
    omega
  have hmax : BitVec.ofNat 8 (e + 150).toNat ≠ 255#8 := fun h => by
    have hval := hexponent.symm.trans (congrArg BitVec.toNat h)
    change _ = 255 at hval
    omega
  have hzero : BitVec.ofNat 8 (e + 150).toNat ≠ 0#8 := fun h => by
    have hval := hexponent.symm.trans (congrArg BitVec.toNat h)
    change _ = 0 at hval
    omega
  have hnumber : .finite s m e hm
      = number s (BitVec.ofNat 8 (e + 150).toNat) (BitVec.ofNat 23 m) := by
    unfold number
    rw [if_neg hmax, if_neg hzero]
    refine finite_congr ?_ ?_
    · rw [BitVec.toNat_ofNat]
      omega
    · rw [hexponent]
      omega
  rw [hnumber, packBits_number _ _ _ (.inl hmax), unpackBits_packComponents]

/-- **Packing a number in canonical form loses nothing.** -/
theorem unpack_pack_canonical (hcanonical : Canonical u) : unpackBits (packBits u) = u := by
  cases u with
  | notANumber => exact hcanonical.elim
  | infinity s => cases s <;> rfl
  | zero s => cases s <;> rfl
  | finite s m e hm =>
    obtain ⟨hlt, hlow, hhigh, hfull⟩ := hcanonical
    by_cases hnormal : 2 ^ 23 ≤ m
    · exact unpack_pack_full hnormal hlt hlow hhigh
    · obtain rfl : e = -149 := hfull.resolve_left hnormal
      have hfraction : (BitVec.ofNat 23 m).toNat = m := by
        rw [BitVec.toNat_ofNat]
        omega
      have hsome : BitVec.ofNat 23 m ≠ 0#23 := fun h => by
        have hval := hfraction.symm.trans (congrArg BitVec.toNat h)
        change m = 0 at hval
        omega
      have hnumber : .finite s m (-149) hm = number s 0#8 (BitVec.ofNat 23 m) := by
        unfold number
        rw [if_neg (by decide), if_pos rfl, dif_neg hsome]
        exact finite_congr hfraction.symm rfl
      rw [hnumber, packBits_number _ _ _ (.inl (by decide)), unpackBits_packComponents]

/-- **A mantissa that fits has a canonical form**, below the overflow. -/
theorem exists_canonical (s : Sign) (hn : 0 < n) (hlt : n < 2 ^ 24) (he : -149 ≤ e)
    (hbelow : n.log2 + e ≤ 127) :
    ∃ m' e', ∃ hm' : 0 < m', Canonical (.finite s m' e' hm') ∧ units m' e' = units n e := by
  have hlog : n.log2 < 24 := (Nat.log2_lt (Nat.ne_of_gt hn)).mpr hlt
  -- as many digits as the mantissa and the exponent have room for
  obtain ⟨k, hk⟩ : ∃ k : Nat, (k : Int) = min (23 - n.log2 : Int) (e + 149) :=
    ⟨(min (23 - n.log2 : Int) (e + 149)).toNat, by omega⟩
  have hpos : 0 < n * 2 ^ k := Nat.mul_pos hn (Nat.two_pow_pos k)
  have hshift := log2_mul_two_pow (Nat.ne_of_gt hn) k
  refine ⟨n * 2 ^ k, e - k, hpos, ⟨?_, by omega, by omega, ?_⟩, ?_⟩
  · exact (Nat.log2_lt (Nat.ne_of_gt hpos)).mp (by omega)
  · by_cases hfull : n.log2 + k = 23
    · exact .inl ((Nat.le_log2 (Nat.ne_of_gt hpos)).mp (by omega))
    · exact .inr (by omega)
  · have hpow : (e + 149).toNat = k + (e - k + 149).toNat := by omega
    unfold units
    rw [hpow, Nat.pow_add, Nat.mul_assoc]

/-- Integers are packed without a loss. -/
theorem unpack_pack_integral (s : Sign) (hlt : n < 2 ^ 24) :
    unpackBits (packBits (integral s n)) = integral s n :=
  unpack_pack_canonical (canonical_integral s hlt)

/-- A sum that is an integer below `2 ^ 24` is that integer. -/
theorem normalize_integral (he : -149 ≤ e) (hlt : n < 2 ^ 24)
    (hunits : units m e = n * unitCount) :
    UnpackedFloat.normalize Format.binary32 (m : Int) e .positive = integral .positive n := by
  have hunit : 0 < unitCount := by decide
  unfold UnpackedFloat.normalize
  by_cases hm : 0 < m
  · have hn : 0 < n := Nat.pos_of_mul_pos_right (hunits ▸ units_pos hm)
    rw [Int.compare_eq_gt.mpr (by omega : (0 : Int) < m)]
    exact round_integral hm he hn hlt hunits
  · obtain rfl : m = 0 := by omega
    have hn : n * unitCount = 0 := hunits.symm.trans (Nat.zero_mul _)
    obtain rfl : n = 0 := (Nat.mul_eq_zero.mp hn).resolve_right (Nat.ne_of_gt hunit)
    rfl

/-! ## Conversion and counting -/

/-- **An integer below `2 ^ 24` is converted without an error.** -/
theorem unpacked_ofNat (hlt : n < 2 ^ 24) : (ofNat n).unpacked = integral .positive n := by
  have hword : n.toUInt64.toNat = n := by
    change n % 2 ^ 64 = n
    omega
  unfold ofNat
  rw [unpacked_ofFloat32]
  change unpackBits (packBits (UnpackedFloat.normalize Format.binary32 (n.toUInt64.toNat : Int) 0
    .positive)) = _
  rw [hword, normalize_integral (by decide) hlt rfl, unpack_pack_integral _ hlt]

/-- An integer below `2 ^ 24` is converted without an error. -/
theorem value_ofNat (hlt : n < 2 ^ 24) : (ofNat n).value = (n * unitCount : Nat) := by
  unfold value
  rw [unpacked_ofNat hlt, valueOf_integral _ hlt]
  rfl

/-- Rounding gives a number, and keeps the sign. -/
theorem signOf_roundWithAccuracy (s : Sign) (m : Nat) (e : Int) (a : Accuracy) :
    let u := roundWithAccuracy Format.binary32 s m e a
    u ≠ .notANumber ∧ signOf u = s := by
  have hcases : ∀ (m : Nat) (e : Int),
      let u := if hm : m = 0 then .zero s else .finite s m e (Nat.pos_of_ne_zero hm)
      u ≠ .notANumber ∧ signOf u = s := by
    intro m e
    by_cases hm : m = 0
    · rw [dif_pos hm]
      exact ⟨UnpackedFloat.noConfusion, rfl⟩
    · rw [dif_neg hm]
      exact ⟨UnpackedFloat.noConfusion, rfl⟩
  exact hcases _ _

/-- Normalising keeps the sign. -/
theorem signOf_normalize (k e : Int) :
    let u := UnpackedFloat.normalize Format.binary32 k e .positive
    u ≠ .notANumber ∧ (0 ≤ k → signOf u = .positive) := by
  unfold UnpackedFloat.normalize UnpackedFloat.round
  rcases Int.lt_trichotomy k 0 with hneg | rfl | hpos
  · rw [Int.compare_eq_lt.mpr hneg]
    exact ⟨(signOf_roundWithAccuracy ..).1, fun hnonneg => (Int.not_lt.mpr hnonneg hneg).elim⟩
  · exact ⟨UnpackedFloat.noConfusion, fun _ => rfl⟩
  · rw [Int.compare_eq_gt.mpr hpos]
    exact ⟨(signOf_roundWithAccuracy ..).1, fun _ => (signOf_roundWithAccuracy ..).2⟩

/-- Every natural number, however it is rounded, becomes a number that is not negative. -/
theorem ofNat_nonneg (n : Nat) : (ofNat n).isNaN = false ∧ 0 ≤ (ofNat n).value := by
  have hpack : (ofNat n).unpacked = unpackBits (packBits (UnpackedFloat.normalize Format.binary32
      (n.toUInt64.toNat : Int) 0 .positive)) := unpacked_ofFloat32 _
  obtain ⟨hnumber, hsign⟩ := signOf_normalize n.toUInt64.toNat 0
  exact ⟨isNaN_of_pack hpack hnumber,
    value_nonneg_of_pack hpack hnumber (hsign (Int.natCast_nonneg _))⟩

/-- An integer is not NaN. -/
theorem isNaN_of_integral (hunpack : x.unpacked = integral s n) : x.isNaN = false := by
  refine Bool.eq_false_iff.mpr fun hnan => ?_
  rw [unpacked_of_isNaN hnan] at hunpack
  unfold integral at hunpack
  by_cases hn : 0 < n
  · rw [dif_pos hn] at hunpack
    cases hunpack
  · rw [dif_neg hn] at hunpack
    cases hunpack

/-- The next integer is one more. -/
theorem unpacked_add_one (hx : x.unpacked = integral .positive n) (hlt : n + 1 < 2 ^ 24) :
    (x + one).unpacked = integral .positive (n + 1) := by
  have hone : one.unpacked = .finite .positive (2 ^ 23) (-23) (by decide) := rfl
  have hsum : UnpackedFloat.add Format.binary32 x.unpacked one.unpacked
      = integral .positive (n + 1) := by
    rw [hx, hone]
    by_cases hn : 0 < n
    · rw [integral_pos _ hn]
      refine normalize_integral (by omega) hlt ?_
      rw [units_add, units_shiftLeft (Int.min_le_left ..) (by omega),
        units_shiftLeft (Int.min_le_right ..) (by omega), units_integral hn (by omega),
        Nat.succ_mul]
      rfl
    · obtain rfl : n = 0 := by omega
      rfl
  rw [unpacked_add, hsum, unpack_pack_integral _ hlt]

/-- The integral part of a magnitude below `2 ^ 23`. -/
theorem unpacked_integralPart (hlt : x.toUInt32.toNat < 2 ^ 24) :
    (integralPart x).unpacked = integral .positive x.toUInt32.toNat := by
  unfold integralPart
  rw [unpacked_ofFloat32]
  change unpackBits (packBits (UnpackedFloat.normalize Format.binary32 (x.toUInt32.toNat : Int) 0
    .positive)) = _
  rw [normalize_integral (by decide) hlt rfl, unpack_pack_integral _ hlt]

/-! ## Integral parts -/

/-- A number that can have a fraction lies between its integral part and the next
integer, apart from its sign. -/
structure Fine (x : Binary32) (k : Nat) : Prop where
  number : x.isNaN = false
  small : k < 2 ^ 23
  whole : (integralPart x.abs).unpacked = integral .positive k
  low : (k * unitCount : Nat) ≤ x.abs.value
  high : x.abs.value < ((k + 1) * unitCount : Nat)

/-- A number that is not coarse has an integral part. -/
theorem exists_fine (hfine : x.isCoarse = false) : ∃ k, Fine x k := by
  obtain ⟨hnumber, hbelow⟩ := Bool.or_eq_false_iff.mp hfine
  have habs : x.abs.isNaN = false := x.isNaN_abs.trans hnumber
  have hfrom : integralFrom.value = (2 ^ 23 * unitCount : Nat) := rfl
  have hunit : (0 : Int) < unitCount := by decide
  have hlt : x.abs.value < (2 ^ 23 * unitCount : Nat) := by
    rw [← hfrom]
    refine Int.lt_of_not_ge fun hle => ?_
    rw [(le_iff rfl habs).mpr hle] at hbelow
    cases hbelow
  obtain ⟨k, hk⟩ : ∃ k : Nat, x.abs.value / unitCount = k :=
    ⟨_, (Int.toNat_of_nonneg (Int.ediv_nonneg x.value_abs_nonneg (Int.le_of_lt hunit))).symm⟩
  have hsmall : k < 2 ^ 23 := by
    have hquotient : x.abs.value / unitCount < 2 ^ 23 := Int.ediv_lt_of_lt_mul hunit hlt
    omega
  have htruncated : x.abs.toUInt32.toNat = k := by
    rw [toNat_toUInt32 habs, hk]
    omega
  have hwhole := unpacked_integralPart (x := x.abs) (by omega)
  rw [htruncated] at hwhole
  refine ⟨k, hnumber, hsmall, hwhole, ?_, ?_⟩
  · have hle := Int.ediv_mul_le x.abs.value (Int.ne_of_gt hunit)
    rw [hk] at hle
    exact hle
  · have hlast := Int.lt_ediv_add_one_mul_self x.abs.value hunit
    rw [hk] at hlast
    exact hlast

/-- The value of the integral part. -/
theorem Fine.value_whole {k : Nat} (hfine : Fine x k) :
    (integralPart x.abs).value = (k * unitCount : Nat) := by
  have hsmall := hfine.small
  unfold value
  rw [hfine.whole, valueOf_integral _ (by omega)]
  rfl

/-- The value of the integer after the integral part. -/
theorem Fine.value_next {k : Nat} (hfine : Fine x k) :
    (integralPart x.abs + one).value = ((k + 1) * unitCount : Nat) := by
  have hsmall := hfine.small
  unfold value
  rw [unpacked_add_one hfine.whole (by omega), valueOf_integral _ (by omega)]
  rfl

/-- The integer after the integral part is not NaN. -/
theorem Fine.isNaN_next {k : Nat} (hfine : Fine x k) :
    (integralPart x.abs + one).isNaN = false := by
  have hsmall := hfine.small
  exact isNaN_of_integral (unpacked_add_one hfine.whole (by omega))

/-- The floor is the greatest integer that is not above the number. -/
theorem Fine.exists_floor {k : Nat} (hfine : Fine x k) (hcoarse : ¬ x.isCoarse = true) :
    (floor x).isNaN = false ∧ ∃ i : Int, (floor x).value = i * unitCount ∧
      i * unitCount ≤ x.value ∧ x.value < i * unitCount + unitCount := by
  have hunit : (0 : Int) < unitCount := by decide
  have hlow := hfine.low
  have hhigh := hfine.high
  have hvalue := x.value_eq
  have hnumberWhole : (integralPart x.abs).isNaN = false := isNaN_of_integral hfine.whole
  rw [Nat.succ_mul] at hhigh
  unfold floor
  rw [if_neg hcoarse]
  simp only
  by_cases hbelow : x.signBit = true ∧ lt (integralPart x.abs) x.abs = true
  · have hlt := (lt_iff hnumberWhole (x.isNaN_abs.trans hfine.number)).mp hbelow.2
    have hnext := hfine.value_next
    rw [hfine.value_whole] at hlt
    rw [if_pos hbelow.1] at hvalue
    rw [if_pos (Bool.and_eq_true_iff.mpr hbelow), isNaN_neg, value_neg, hnext]
    refine ⟨hfine.isNaN_next, -(k + 1 : Nat), ?_⟩
    rw [Int.neg_mul, ← Int.natCast_mul, Nat.succ_mul]
    exact ⟨rfl, by omega, by omega⟩
  · rw [if_neg fun h => hbelow (Bool.and_eq_true_iff.mp h)]
    unfold withSignOf
    by_cases hsign : x.signBit = true
    · -- below zero without a fraction
      have hwhole : x.abs.value ≤ (integralPart x.abs).value := by
        refine Int.le_of_not_gt fun hlt => hbelow ⟨hsign, ?_⟩
        exact (lt_iff hnumberWhole (x.isNaN_abs.trans hfine.number)).mpr hlt
      rw [hfine.value_whole] at hwhole
      rw [if_pos hsign] at hvalue
      rw [if_pos hsign, isNaN_neg, value_neg, hfine.value_whole]
      refine ⟨hnumberWhole, -k, ?_⟩
      rw [Int.neg_mul, ← Int.natCast_mul]
      exact ⟨rfl, by omega, by omega⟩
    · rw [if_neg hsign] at hvalue
      rw [if_neg hsign, hfine.value_whole]
      refine ⟨hnumberWhole, k, ?_⟩
      rw [← Int.natCast_mul]
      exact ⟨rfl, by omega, by omega⟩

/-- **A number lies at most one above its floor.** -/
theorem floor_le (hnumber : x.isNaN = false) : (floor x).isNaN = false ∧
    (floor x).value ≤ x.value ∧ x.value ≤ (floor x).value + unitCount := by
  by_cases hcoarse : x.isCoarse = true
  · have hunit : (0 : Int) < unitCount := by decide
    have hsame : floor x = x := if_pos hcoarse
    rw [hsame]
    exact ⟨hnumber, by omega, by omega⟩
  · obtain ⟨k, hfine⟩ := exists_fine (Bool.eq_false_iff.mpr hcoarse)
    obtain ⟨hfloor, i, hvalue, hlow, hhigh⟩ := hfine.exists_floor hcoarse
    rw [hvalue]
    exact ⟨hfloor, hlow, Int.le_of_lt hhigh⟩

/-- **Rounding to the nearest integer does not cross an integer.** -/
theorem le_roundHalfAway (hnumber : x.isNaN = false) (hn : 0 < n)
    (hle : (n * unitCount : Nat) ≤ x.value) : (roundHalfAway x).isNaN = false ∧
      (n * unitCount : Nat) ≤ (roundHalfAway x).value := by
  have hunit : 0 < unitCount := by decide
  have hpos : 0 < n * unitCount := Nat.mul_pos hn hunit
  unfold roundHalfAway
  by_cases hcoarse : x.isCoarse = true
  · rw [if_pos hcoarse]
    exact ⟨hnumber, hle⟩
  obtain ⟨k, hfine⟩ := exists_fine (Bool.eq_false_iff.mpr hcoarse)
  have hnonneg := x.value_abs_nonneg
  have hvalue := x.value_eq
  have hsign : ¬ x.signBit = true := fun hsign => by
    rw [if_pos hsign] at hvalue
    omega
  rw [if_neg hsign] at hvalue
  have hk : n ≤ k := by
    have hhigh := hfine.high
    rw [← hvalue] at hhigh
    have hlt : n * unitCount < (k + 1) * unitCount := by omega
    exact Nat.le_of_lt_succ (Nat.lt_of_mul_lt_mul_right hlt)
  have hwhole : n * unitCount ≤ k * unitCount := Nat.mul_le_mul_right _ hk
  rw [if_neg hcoarse]
  unfold withSignOf
  rw [if_neg hsign]
  split
  · rw [hfine.value_whole]
    exact ⟨isNaN_of_integral hfine.whole, by omega⟩
  · rw [hfine.value_next, Nat.succ_mul]
    exact ⟨hfine.isNaN_next, by omega⟩

end PixelPipeline.Binary32
