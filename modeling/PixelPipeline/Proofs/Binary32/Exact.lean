import PixelPipeline.Proofs.Binary32.Cancel

/-!
# Exact results

A mantissa that fits is a number of the format (`exists_number`), and a sum that is a number
is not rounded (`equals_add`).  So what is left of a magnitude without its integral part is
computed without an error (`Fine.equals_rest`), and comparing it with one half decides which
integer is nearest: rounding to an integer moves a number by at most one half
(`exists_roundHalfAway`).
-/

namespace PixelPipeline.Binary32

open Float.Model (UnpackedFloat Format)
open Float.Model.UnpackedFloat

variable {u : UnpackedFloat} {m n k : Nat} {e : Int} {x y z : Binary32}

/-! ## Numbers with a given value -/

/-- What is packed in canonical form is read as it was. -/
theorem exists_unpacked (hcanonical : Canonical u) : ∃ z : Binary32, z.unpacked = u :=
  ⟨⟨⟨packBits u⟩⟩, unpack_pack_canonical hcanonical⟩

/-- A number in canonical form is not NaN. -/
theorem isNaN_of_canonical (hcanonical : Canonical x.unpacked) : x.isNaN = false := by
  refine Bool.eq_false_iff.mpr fun hnan => ?_
  rw [unpacked_of_isNaN hnan] at hcanonical
  exact hcanonical

/-- A mantissa that fits, with an exponent below the overflow, is a number. -/
theorem exists_number (hlt : n < 2 ^ 24) (he : -149 ≤ e) (hbelow : units n e < overflowCount) :
    ∃ z : Binary32, z.isFinite = true ∧ z.value = units n e := by
  by_cases hn : 0 < n
  · have hlog : n.log2 + e ≤ 127 := by
      unfold overflowCount unitCount at hbelow
      rw [← Nat.pow_add] at hbelow
      have hlt := (Nat.log2_lt (Nat.ne_of_gt (units_pos hn))).mpr hbelow
      unfold units at hlt
      rw [log2_mul_two_pow (Nat.ne_of_gt hn)] at hlt
      omega
    obtain ⟨m, e', hm, hcanonical, hunits⟩ := exists_canonical .positive hn hlt he hlog
    obtain ⟨z, hz⟩ := exists_unpacked hcanonical
    have hvalue : z.value = units n e := by
      unfold value
      rw [hz, valueOf_finite, hunits]
      rfl
    refine ⟨z, isFinite_iff.mpr ⟨isNaN_of_canonical (hz ▸ hcanonical), ?_⟩, hvalue⟩
    rw [hvalue]
    exact hbelow
  · obtain rfl : n = 0 := by omega
    refine ⟨zero, rfl, ?_⟩
    unfold units
    rw [Nat.zero_mul]
    rfl

/-! ## Exact sums -/

/-- A signed mantissa is rounded with its sign. -/
theorem normalize_apply (hm : 0 < m) (s : Sign) :
    UnpackedFloat.normalize Format.binary32 (s.apply m) e .positive
      = UnpackedFloat.round Format.binary32 s m e := by
  unfold UnpackedFloat.normalize
  rw [compare_apply_zero hm]
  cases s with
  | negative =>
    simp only [Sign.apply, Int.neg_neg, Int.toNat_natCast]
  | positive => rfl

/-- An integer that is not zero has a sign and a magnitude. -/
theorem exists_apply {k : Int} (hk : k ≠ 0) : ∃ (s : Sign) (m : Nat), 0 < m ∧ k = s.apply m := by
  rcases Int.lt_or_gt_of_ne hk with hneg | hpos
  · exact ⟨.negative, k.natAbs, by omega, by simp only [Sign.apply]; omega⟩
  · exact ⟨.positive, k.natAbs, by omega, by simp only [Sign.apply]; omega⟩

/-- A signed mantissa that is a number of the format is that number. -/
theorem normalize_canonical {k : Int} (he : -149 ≤ e) (hcanonical : Canonical u)
    (hfinite : ∀ s, u ≠ .infinity s) (hne : valueOf u ≠ 0)
    (hvalue : k * (2 ^ (e + 149).toNat : Nat) = valueOf u) :
    UnpackedFloat.normalize Format.binary32 k e .positive = u := by
  cases u with
  | notANumber => exact hcanonical.elim
  | infinity s => exact (hfinite s rfl).elim
  | zero s => exact (hne rfl).elim
  | finite s m' e' hm' =>
    have hk : k ≠ 0 := by
      rintro rfl
      rw [Int.zero_mul] at hvalue
      exact hne hvalue.symm
    obtain ⟨s', m, hm, rfl⟩ := exists_apply hk
    rw [← apply_mul, valueOf_finite] at hvalue
    obtain ⟨rfl, hunits⟩ := apply_inj (units_pos hm) hvalue
    rw [normalize_apply hm]
    exact round_canonical hm he hcanonical hunits

/-- The aligned mantissas, scaled, are the values. -/
theorem aligned_sum {m' : Nat} {e' : Int} (s s' : Sign) (hm : 0 < m) (hm' : 0 < m')
    (he : -149 ≤ min e e') :
    (s.apply (m <<< (e - min e e').toNat : Nat) + s'.apply (m' <<< (e' - min e e').toNat : Nat))
        * (2 ^ (min e e' + 149).toNat : Nat)
      = valueOf (.finite s m e hm) + valueOf (.finite s' m' e' hm') := by
  have haligned := units_shiftLeft (m := m) (Int.min_le_left e e') he
  have haligned' := units_shiftLeft (m := m') (Int.min_le_right e e') he
  unfold units at haligned haligned'
  rw [Int.add_mul, ← apply_mul, ← apply_mul, haligned, haligned']
  rfl

/-- **A sum that is a number is not rounded.** -/
theorem equals_add (hx : x.isFinite = true) (hy : y.isFinite = true) (hz : z.isFinite = true)
    (hsum : x.value + y.value = z.value) : Equals (x + y) z := by
  by_cases hzero : z.value = 0
  · exact (equals_zero_of_sum hx hy (hsum.trans hzero)).trans
      ⟨rfl, (isFinite_iff.mp hz).1, hzero.symm⟩
  obtain ⟨hxn, hxv⟩ := isFinite_iff.mp hx
  obtain ⟨hyn, hyv⟩ := isFinite_iff.mp hy
  obtain ⟨hzn, hzv⟩ := isFinite_iff.mp hz
  have hcanonical := canonical_of_isNaN hzn
  have hadd : UnpackedFloat.add Format.binary32 x.unpacked y.unpacked = z.unpacked := by
    have hx' := canonical_of_isNaN hxn
    have hy' := canonical_of_isNaN hyn
    have hxi := ne_infinity_of_value hxv
    have hyi := ne_infinity_of_value hyv
    have hzi := ne_infinity_of_value hzv
    unfold value at hsum hzero
    generalize x.unpacked = u at hx' hxi hsum
    generalize y.unpacked = v at hy' hyi hsum
    generalize z.unpacked = w at hcanonical hzi hsum hzero
    cases u with
    | notANumber => exact hx'.elim
    | infinity s => exact (hxi s rfl).elim
    | zero s =>
      rw [valueOf_zero, Int.zero_add] at hsum
      obtain rfl := eq_of_valueOf hy' hcanonical hsum (hsum ▸ hzero)
      cases v with
      | zero s' => exact (hzero rfl).elim
      | _ => rfl
    | finite s m e hm =>
      cases v with
      | notANumber => exact hy'.elim
      | infinity s' => exact (hyi s' rfl).elim
      | zero s' =>
        rw [valueOf_zero, Int.add_zero] at hsum
        exact eq_of_valueOf hx' hcanonical hsum (hsum ▸ hzero)
      | finite s' m' e' hm' =>
        have he : -149 ≤ min e e' := by
          have hlow := hx'.2.1
          have hlow' := hy'.2.1
          omega
        exact normalize_canonical he hcanonical hzi hzero
          ((aligned_sum s s' hm hm' he).trans hsum)
  refine .of_unpacked ?_ hzn
  rw [unpacked_add, hadd, unpack_pack_canonical hcanonical]

/-- A natural number that is a float is converted without an error. -/
theorem equals_ofNat (hx : x.isFinite = true) (hlt : n < 2 ^ 64)
    (hvalue : x.value = (n * unitCount : Nat)) : Equals (ofNat n) x := by
  obtain ⟨hnumber, hbelow⟩ := isFinite_iff.mp hx
  have hcanonical := canonical_of_isNaN hnumber
  have hword : n.toUInt64.toNat = n := Nat.mod_eq_of_lt hlt
  by_cases hn : n = 0
  · subst hn
    rw [Nat.zero_mul] at hvalue
    exact ⟨rfl, hnumber, hvalue.symm⟩
  have hunit : 0 < unitCount := by decide
  have hne : x.value ≠ 0 := by
    have hpos := Nat.mul_pos (Nat.pos_of_ne_zero hn) hunit
    omega
  have hconvert : UnpackedFloat.normalize Format.binary32 (n : Int) 0 .positive = x.unpacked :=
    normalize_canonical (by decide) hcanonical (ne_infinity_of_value hbelow) hne hvalue.symm
  refine .of_unpacked ?_ hnumber
  unfold ofNat
  rw [unpacked_ofFloat32]
  change unpackBits (packBits (UnpackedFloat.normalize Format.binary32 (n.toUInt64.toNat : Int) 0
    .positive)) = _
  rw [hword, hconvert, unpack_pack_canonical hcanonical]

/-! ## Rounding to an integer -/

/-- A large number has no fraction. -/
theorem dvd_of_isCoarse (hnumber : x.isNaN = false) (hcoarse : x.isCoarse = true) :
    (unitCount : Int) ∣ x.value := by
  have hlarge : le integralFrom x.abs = true := by
    unfold isCoarse at hcoarse
    rwa [hnumber, Bool.false_or] at hcoarse
  have hle := (le_iff rfl (x.isNaN_abs.trans hnumber)).mp hlarge
  have hfrom : integralFrom.value = (2 ^ 23 * unitCount : Nat) := rfl
  have hsigned : x.value.natAbs = x.abs.value.natAbs := by
    rw [value_eq]
    split
    · exact Int.natAbs_neg _
    · rfl
  have hmagnitude : 2 ^ 23 * unitCount ≤ x.value.natAbs := by
    rw [hfrom] at hle
    omega
  have hcanonical := canonical_of_isNaN hnumber
  rw [← Int.dvd_natAbs]
  unfold value at hmagnitude ⊢
  generalize x.unpacked = u at hcanonical hmagnitude ⊢
  cases u with
  | notANumber => exact hcanonical.elim
  | infinity s =>
    rw [valueOf_infinity, natAbs_apply]
    exact Int.natCast_dvd_natCast.mpr (Nat.dvd_mul_left _ _)
  | zero s => exact Int.dvd_zero _
  | finite s m e hm =>
    rw [valueOf_finite, natAbs_apply] at hmagnitude ⊢
    -- the exponent does not reach behind the point
    have he : 0 ≤ e := by
      refine Int.le_of_not_gt fun hneg => ?_
      have hpow : 2 ^ (e + 149).toNat ≤ 2 ^ 148 := Nat.pow_le_pow_right (by decide) (by omega)
      have hlt : units m e < 2 ^ 24 * 2 ^ 148 :=
        Nat.mul_lt_mul_of_lt_of_le hcanonical.1 hpow (Nat.two_pow_pos _)
      exact absurd hlt (Nat.not_lt_of_le hmagnitude)
    have hsplit : (e + 149).toNat = e.toNat + 149 := by omega
    refine Int.natCast_dvd_natCast.mpr ?_
    unfold units unitCount
    rw [hsplit, Nat.pow_add, ← Nat.mul_assoc]
    exact Nat.dvd_mul_left _ _

/-- The digits behind the point are digits of the mantissa. -/
theorem exists_units_mod (he : -149 ≤ e) : ∃ r ≤ m, units m e % unitCount = units r e := by
  by_cases hneg : e < 0
  · have hsplit : 149 = (-e).toNat + (e + 149).toNat := by omega
    refine ⟨m % 2 ^ (-e).toNat, Nat.mod_le _ _, ?_⟩
    unfold units unitCount
    generalize (-e).toNat = k at hsplit ⊢
    generalize (e + 149).toNat = j at hsplit ⊢
    rw [hsplit, Nat.pow_add, Nat.mul_mod_mul_right]
  · have hsplit : (e + 149).toNat = e.toNat + 149 := by omega
    refine ⟨0, Nat.zero_le _, ?_⟩
    unfold units unitCount
    rw [hsplit, Nat.pow_add, ← Nat.mul_assoc, Nat.mul_mod_left, Nat.zero_mul]

/-- What is left of a magnitude without its integral part is a number. -/
theorem Fine.exists_rest (hfine : Fine x k) :
    ∃ z : Binary32, z.isFinite = true ∧ z.value = x.abs.value - (k * unitCount : Nat) := by
  have hlow := hfine.low
  have hhigh := hfine.high
  have hsmall := hfine.small
  have hcanonical := canonical_of_isNaN (x.isNaN_abs.trans hfine.number)
  have hunit : 0 < unitCount := by decide
  have hbelow : (k + 1) * unitCount < overflowCount :=
    Nat.mul_lt_mul_of_pos_right (Nat.lt_of_le_of_lt hsmall (by decide)) hunit
  have habs : x.abs.value = valueOf x.abs.unpacked := rfl
  rw [habs] at hlow hhigh ⊢
  generalize x.abs.unpacked = u at hcanonical hlow hhigh ⊢
  -- a magnitude is a multiple of a power of two by a mantissa that fits
  obtain ⟨m, e, hm, he, hu⟩ : ∃ m e, m < 2 ^ 24 ∧ -149 ≤ e ∧ valueOf u = (units m e : Nat) := by
    have hnonneg : 0 ≤ valueOf u := Int.le_trans (Int.natCast_nonneg _) hlow
    cases u with
    | notANumber => exact hcanonical.elim
    | infinity s =>
      have hlarge : (valueOf (.infinity s)).natAbs = overflowCount := natAbs_apply s _
      omega
    | zero s =>
      refine ⟨0, 0, by decide, by decide, ?_⟩
      unfold units
      rw [Nat.zero_mul]
      rfl
    | finite s m e hm =>
      have hmagnitude : (valueOf (.finite s m e hm)).natAbs = units m e := natAbs_apply s _
      exact ⟨m, e, hcanonical.1, hcanonical.2.1, by omega⟩
  obtain ⟨r, hr, hmod⟩ := exists_units_mod (m := m) he
  rw [hu] at hlow hhigh ⊢
  have hk : units m e / unitCount = k := by
    have hle := Int.ofNat_le.mp hlow
    have hlt := Int.ofNat_lt.mp hhigh
    exact Nat.div_eq_of_lt_le hle hlt
  have hrest : units r e = units m e - k * unitCount := by
    rw [← hmod, Nat.mod_eq_sub_div_mul, hk]
  obtain ⟨z, hz, hvalue⟩ := exists_number (Nat.lt_of_le_of_lt hr hm) he (by omega)
  exact ⟨z, hz, by omega⟩

/-- The distance from the integral part, which is computed exactly. -/
theorem Fine.equals_rest (hfine : Fine x k) :
    ∃ z : Binary32, Equals (x.abs - integralPart x.abs) z ∧
      z.value = x.abs.value - (k * unitCount : Nat) := by
  have hsmall := hfine.small
  have hhigh := hfine.high
  have hlow := hfine.low
  obtain ⟨z, hz, hvalue⟩ := hfine.exists_rest
  have hunit : 0 < unitCount := by decide
  have hbelow : (k + 1) * unitCount < overflowCount :=
    Nat.mul_lt_mul_of_pos_right (Nat.lt_of_le_of_lt hsmall (by decide)) hunit
  have habs : x.abs.isFinite = true :=
    isFinite_iff.mpr ⟨x.isNaN_abs.trans hfine.number, by omega⟩
  have hwhole : (integralPart x.abs).isFinite = true := by
    refine isFinite_iff.mpr ⟨isNaN_of_integral hfine.whole, ?_⟩
    rw [hfine.value_whole]
    omega
  have hsum : x.abs.value + (-integralPart x.abs).value = z.value := by
    rw [value_neg, hfine.value_whole, hvalue]
    omega
  have hadd := equals_add habs (isFinite_neg hwhole) hz hsum
  exact ⟨z, (Equals.of_unpacked (unpacked_sub _ _) hadd.left).trans hadd, hvalue⟩

/-- The integer to which a magnitude is rounded. -/
def nearest (x : Binary32) : Binary32 :=
  if lt (x.abs - integralPart x.abs) half then integralPart x.abs else integralPart x.abs + one

/-- The nearest integer to a magnitude. -/
theorem Fine.exists_nearest (hfine : Fine x k) : (nearest x).isNaN = false ∧
    ∃ n : Nat, (nearest x).value = (n * unitCount : Nat) ∧
      2 * ((n * unitCount : Nat) - x.abs.value).natAbs ≤ unitCount := by
  obtain ⟨z, hrest, hz⟩ := hfine.equals_rest
  have hlow := hfine.low
  have hhigh := hfine.high
  have hhalf : lt (x.abs - integralPart x.abs) half = true ↔ 2 * z.value < unitCount := by
    have hvalue : half.value = (2 ^ 148 : Nat) := rfl
    have hunit : unitCount = 2 * 2 ^ 148 := rfl
    rw [lt_iff hrest.left rfl, hrest.value, hvalue]
    omega
  rw [Nat.succ_mul] at hhigh
  unfold nearest
  by_cases hbelow : lt (x.abs - integralPart x.abs) half = true
  · have hlt := hhalf.mp hbelow
    rw [if_pos hbelow]
    exact ⟨isNaN_of_integral hfine.whole, k, hfine.value_whole, by omega⟩
  · have hle : ¬ 2 * z.value < unitCount := fun hlt => hbelow (hhalf.mpr hlt)
    rw [if_neg hbelow]
    refine ⟨hfine.isNaN_next, k + 1, hfine.value_next, ?_⟩
    rw [Nat.succ_mul k]
    omega

/-- **Rounding takes the nearest integer.** -/
theorem exists_roundHalfAway (hnumber : x.isNaN = false) : (roundHalfAway x).isNaN = false ∧
    ∃ i : Int, (roundHalfAway x).value = i * unitCount ∧
      2 * (i * unitCount - x.value).natAbs ≤ unitCount := by
  by_cases hcoarse : x.isCoarse = true
  · obtain ⟨i, hi⟩ := dvd_of_isCoarse hnumber hcoarse
    have hsame : roundHalfAway x = x := if_pos hcoarse
    rw [hsame]
    refine ⟨hnumber, i, hi.trans (Int.mul_comm _ _), ?_⟩
    rw [hi, Int.mul_comm, Int.sub_self]
    decide
  · obtain ⟨k, hfine⟩ := exists_fine (Bool.eq_false_iff.mpr hcoarse)
    obtain ⟨hnearest, n, hn, hdistance⟩ := hfine.exists_nearest
    have hround : roundHalfAway x = withSignOf x (nearest x) := if_neg hcoarse
    have hvalue := x.value_eq
    rw [hround]
    unfold withSignOf
    by_cases hsign : x.signBit = true
    · rw [if_pos hsign] at hvalue
      rw [if_pos hsign, isNaN_neg, value_neg, hn]
      refine ⟨hnearest, -n, ?_, ?_⟩
      · rw [Int.neg_mul, Int.natCast_mul]
      · rw [Int.neg_mul, ← Int.natCast_mul]
        omega
    · rw [if_neg hsign] at hvalue
      rw [if_neg hsign, hn]
      refine ⟨hnearest, n, Int.natCast_mul _ _, ?_⟩
      rw [← Int.natCast_mul]
      omega

end PixelPipeline.Binary32
