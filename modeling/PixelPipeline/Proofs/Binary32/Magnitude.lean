import PixelPipeline.Proofs.Binary32.Unpacked

/-!
# Bounds that survive rounding

A magnitude that is at most an integral bound below `2 ^ 24` is still at most that
bound after rounding: the bound itself is a number of the format, and rounding does
not step over numbers (`atMost_roundWithAccuracy`).  So bounds can be followed
through products, sums and roundings to integers without computing a single bit.

* `toUInt32_le` — truncation respects the bound;
* `atMost_roundHalfAway` — so does rounding to the nearest integer.
-/

namespace PixelPipeline.Binary32

open Float.Model (UnpackedFloat Format totalExponent)
open Float.Model.UnpackedFloat

/-! ## Magnitudes as fractions -/

/-- The mantissa scaled by the exponent is at most the bound. -/
def Fits (bound m : Nat) (e : Int) : Prop := m * 2 ^ e.toNat ≤ bound * 2 ^ (-e).toNat

variable {bound bound' m m' n : Nat} {e e' : Int}

/-- Both sides can be scaled until the exponent is a natural number. -/
theorem fits_iff {k : Nat} (hk : 0 ≤ e + k) :
    Fits bound m e ↔ m * 2 ^ (e + k).toNat ≤ bound * 2 ^ k := by
  obtain ⟨j, rfl⟩ : ∃ j, k = (-e).toNat + j := ⟨k - (-e).toNat, by omega⟩
  have hleft : (e + ((-e).toNat + j : Nat)).toNat = e.toNat + j := by omega
  rw [hleft, Nat.pow_add, Nat.pow_add, ← Nat.mul_assoc, ← Nat.mul_assoc]
  exact (Nat.mul_le_mul_right_iff (Nat.two_pow_pos j)).symm

theorem Fits.mono (hfits : Fits bound m e) (hle : bound ≤ bound') : Fits bound' m e :=
  Nat.le_trans hfits (Nat.mul_le_mul_right _ hle)

/-- Without an exponent the bound is one on the mantissa. -/
theorem fits_natCast : Fits bound m 0 ↔ m ≤ bound := by
  unfold Fits
  simp

/-- A mantissa can take over powers of two from its exponent. -/
theorem fits_decrease (n : Nat) : Fits bound (m * 2 ^ n) (e - n) ↔ Fits bound m e := by
  obtain ⟨k, hk⟩ : ∃ k : Nat, 0 ≤ e - n + k := ⟨(e - n).natAbs, by omega⟩
  have hexponent : n + (e - n + k).toNat = (e + k).toNat := by omega
  rw [fits_iff hk, fits_iff (k := k) (by omega), Nat.mul_assoc, ← Nat.pow_add, hexponent]

/-- A mantissa can be aligned to a smaller exponent. -/
theorem Fits.align (hfits : Fits bound m e) (hle : e' ≤ e) :
    Fits bound (m <<< (e - e').toNat) e' := by
  have hback : e - ((e - e').toNat : Int) = e' := by omega
  have haligned := (fits_decrease (e - e').toNat).mpr hfits
  rw [hback] at haligned
  rw [Nat.shiftLeft_eq]
  exact haligned

/-- Digits that are cut off do not make a number larger. -/
theorem Fits.shift (hfits : Fits bound m e) (n : Nat) : Fits bound (m / 2 ^ n) (e + n) := by
  rw [← fits_decrease n, Int.add_sub_cancel]
  exact Nat.le_trans (Nat.mul_le_mul_right _ (Nat.div_mul_le_self m _)) hfits

/-- Bounds on magnitudes multiply. -/
theorem Fits.mul (hfits : Fits bound m e) (hfits' : Fits bound' m' e') :
    Fits (bound * bound') (m * m') (e + e') := by
  obtain ⟨k, hk⟩ : ∃ k : Nat, 0 ≤ e + k := ⟨e.natAbs, by omega⟩
  obtain ⟨k', hk'⟩ : ∃ k' : Nat, 0 ≤ e' + k' := ⟨e'.natAbs, by omega⟩
  have hboth := Nat.mul_le_mul ((fits_iff hk).mp hfits) ((fits_iff hk').mp hfits')
  have hsum : (e + e' + (k + k' : Nat)).toNat = (e + k).toNat + (e' + k').toNat := by omega
  rw [fits_iff (k := k + k') (by omega), hsum, Nat.pow_add, Nat.pow_add]
  calc m * m' * (2 ^ (e + k).toNat * 2 ^ (e' + k').toNat)
      = m * 2 ^ (e + k).toNat * (m' * 2 ^ (e' + k').toNat) := by ac_rfl
    _ ≤ bound * 2 ^ k * (bound' * 2 ^ k') := hboth
    _ = bound * bound' * (2 ^ k * 2 ^ k') := by ac_rfl

/-- Bounds on magnitudes with one exponent add up. -/
theorem Fits.add (hfits : Fits bound m e) (hfits' : Fits bound' m' e) :
    Fits (bound + bound') (m + m') e := by
  unfold Fits
  rw [Nat.add_mul, Nat.add_mul]
  exact Nat.add_le_add hfits hfits'

/-- A number below `2 ^ 24` has its leading digit below the 24th. -/
theorem Fits.log2_lt (hfits : Fits bound m e) (hbound : bound < 2 ^ 24) (hm : 0 < m) :
    m.log2 + e < 24 := by
  have hlog := Nat.log2_self_le (Nat.ne_of_gt hm)
  by_cases he : 0 ≤ e
  · obtain ⟨k, rfl⟩ := Int.eq_ofNat_of_zero_le he
    have hscaled : m * 2 ^ k ≤ bound := by simpa [Fits] using hfits
    have hpow : 2 ^ (m.log2 + k) < 2 ^ 24 := by
      rw [Nat.pow_add]
      exact Nat.lt_of_le_of_lt (Nat.le_trans (Nat.mul_le_mul_right _ hlog) hscaled) hbound
    have hlt := (Nat.pow_lt_pow_iff_right (by decide)).mp hpow
    omega
  · obtain ⟨k, rfl⟩ : ∃ k : Nat, e = -k := ⟨(-e).toNat, by omega⟩
    have hscaled : m ≤ bound * 2 ^ k := by simpa [Fits] using hfits
    have hpow : 2 ^ m.log2 < 2 ^ (24 + k) := by
      rw [Nat.pow_add]
      exact Nat.lt_of_le_of_lt (Nat.le_trans hlog hscaled)
        (Nat.mul_lt_mul_of_pos_right hbound (Nat.two_pow_pos k))
    have hlt := (Nat.pow_lt_pow_iff_right (by decide)).mp hpow
    omega

/-! ## Rounding -/

/-- The mantissa is a quotient, and the residual bits tell when it is not exact. -/
structure Truncates (m n : Nat) (em : ExtendedMantissa) : Prop where
  mantissa : em.mantissa = m / 2 ^ n
  residue : em.roundBit = true ∨ em.stickyBit = true → m % 2 ^ n ≠ 0

/-- Shifting an exact mantissa to the right truncates it. -/
theorem truncates_shift (m n : Nat) :
    Truncates m n (ExtendedMantissa.ofMantissaAndAccuracy m .exact >>> n) := by
  induction n with
  | zero =>
    refine ⟨(Nat.div_one m).symm, fun hset => ?_⟩
    obtain hset | hset := hset <;> cases hset
  | succ n ih =>
    obtain ⟨hmantissa, hresidue⟩ := ih
    have hstep : ExtendedMantissa.ofMantissaAndAccuracy m .exact >>> (n + 1)
        = (ExtendedMantissa.ofMantissaAndAccuracy m .exact >>> n).shiftRightOne := rfl
    have hmod : m % 2 ^ (n + 1) = m % 2 ^ n + 2 ^ n * (m / 2 ^ n % 2) := Nat.mod_pow_succ
    rw [hstep]
    refine ⟨?_, fun hset => ?_⟩
    · simp only [ExtendedMantissa.shiftRightOne, hmantissa]
      rw [Nat.div_div_eq_div_mul, Nat.pow_succ]
    · rw [hmod]
      obtain hround | hsticky := hset
      · have hodd : m / 2 ^ n % 2 ≠ 0 := by
          simpa [ExtendedMantissa.shiftRightOne, hmantissa] using hround
        have hpos := Nat.mul_pos (Nat.two_pow_pos n) (Nat.pos_of_ne_zero hodd)
        omega
      · have hbefore := hresidue (by simpa [ExtendedMantissa.shiftRightOne] using hsticky)
        omega

/-- Rounding goes up at most to the next mantissa, and not at all when it is exact. -/
theorem Truncates.roundedMantissa_lt {em : ExtendedMantissa} (htruncates : Truncates m n em) :
    em.roundedMantissa * 2 ^ n < m + 2 ^ n := by
  obtain ⟨hmantissa, hresidue⟩ := htruncates
  have hdiv := Nat.div_add_mod' m (2 ^ n)
  have hpos := Nat.two_pow_pos n
  have hup : (m / 2 ^ n + 1) * 2 ^ n = m / 2 ^ n * 2 ^ n + 2 ^ n := Nat.succ_mul _ _
  have hle : ∀ {k}, k ≤ m / 2 ^ n + 1 → k * 2 ^ n ≤ m / 2 ^ n * 2 ^ n + 2 ^ n := fun hk =>
    hup ▸ Nat.mul_le_mul_right _ hk
  obtain ⟨mantissa, roundBit, stickyBit⟩ := em
  obtain rfl : mantissa = m / 2 ^ n := hmantissa
  unfold ExtendedMantissa.roundedMantissa ExtendedMantissa.accuracy
    Accuracy.roundToNearestEven
  cases roundBit with
  | false =>
    cases stickyBit <;>
    · simp only
      omega
  | true =>
    have hrest := hresidue (.inl rfl)
    cases stickyBit with
    | false =>
      have hstep := hle (k := m / 2 ^ n + m / 2 ^ n % 2) (by omega)
      simp only
      omega
    | true =>
      have hstep := hle (k := m / 2 ^ n + 1) (Nat.le_refl _)
      simp only
      omega

/-- The magnitude is at most the bound.  NaN has none. -/
def AtMost (bound : Nat) : UnpackedFloat → Prop
  | .notANumber => True
  | .infinity _ => False
  | .zero _ => True
  | .finite _ m e _ => Fits bound m e

theorem AtMost.mono {u : UnpackedFloat} (hmost : AtMost bound u) (hle : bound ≤ bound') :
    AtMost bound' u := by
  cases u with
  | notANumber => trivial
  | infinity s => exact hmost.elim
  | zero s => trivial
  | finite s m e hm => exact Fits.mono hmost hle

/-- Rounding does not step over an integral bound below `2 ^ 24`. -/
theorem atMost_roundWithAccuracy (hbound : bound < 2 ^ 24) (hm : 0 < m) (hfits : Fits bound m e)
    (s : Sign) : AtMost bound (roundWithAccuracy Format.binary32 s m e .exact) := by
  unfold roundWithAccuracy shiftToTargetExponent shiftToExponent
  dsimp only
  generalize htarget : Format.binary32.targetExponent (totalExponent m e) = target
  generalize hn : (target - e).toNat = n
  have htruncates := truncates_shift m n
  generalize ExtendedMantissa.ofMantissaAndAccuracy m .exact >>> n = em at htruncates ⊢
  have hrounded := htruncates.roundedMantissa_lt
  generalize em.roundedMantissa = rounded at hrounded ⊢
  have hfirst : Fits bound rounded (e + n) := by
    by_cases hzero : n = 0
    · subst hzero
      have hle : rounded ≤ m := by omega
      rw [Int.natCast_zero, Int.add_zero]
      exact Nat.le_trans (Nat.mul_le_mul_right _ hle) hfits
    · -- digits are cut off only behind the point: the number is below `2 ^ 24`
      have hlog := hfits.log2_lt hbound hm
      have hexponent : e + n ≤ 0 := by
        unfold Format.targetExponent totalExponent at htarget
        have hmin : Format.binary32.minExponent = -149 := rfl
        have hbits : (Format.binary32.mantissaBits : Int) = 24 := rfl
        rw [hmin, hbits] at htarget
        omega
      have hsplit : (-e).toNat = (-(e + n)).toNat + n := by omega
      have hle : m ≤ bound * 2 ^ (-(e + n)).toNat * 2 ^ n := by
        rw [Nat.mul_assoc, ← Nat.pow_add, ← hsplit]
        have hnonpos : e.toNat = 0 := by omega
        simpa [Fits, hnonpos] using hfits
      have hlt : rounded * 2 ^ n < (bound * 2 ^ (-(e + n)).toNat + 1) * 2 ^ n := by
        rw [Nat.succ_mul]
        omega
      have hnonpos : (e + n).toNat = 0 := by omega
      unfold Fits
      rw [hnonpos, Nat.pow_zero, Nat.mul_one]
      exact Nat.le_of_lt_succ (Nat.lt_of_mul_lt_mul_right hlt)
  generalize (Format.binary32.targetExponent (totalExponent rounded (e + n)) - (e + n)).toNat = k
  have hsecond := hfirst.shift k
  rw [(truncates_shift rounded k).mantissa]
  by_cases hzero : rounded / 2 ^ k = 0
  · rw [dif_pos hzero]
    trivial
  · rw [dif_neg hzero]
    exact hsecond

/-- **Rounding keeps a bound** that is an integer of the format. -/
theorem atMost_round (hbound : bound < 2 ^ 24) (hm : 0 < m) (hfits : Fits bound m e) (s : Sign) :
    AtMost bound (UnpackedFloat.round Format.binary32 s m e) := by
  unfold UnpackedFloat.round decreaseExponent
  simp only
  rw [Nat.shiftLeft_eq]
  exact atMost_roundWithAccuracy hbound (Nat.mul_pos hm (Nat.two_pow_pos _))
    ((fits_decrease _).mpr hfits) s

/-! ## Packing -/

/-- The bound depends on the exponent and the fraction alone. -/
theorem atMost_number (hpos : 0 < bound) (hbound : bound < 2 ^ 24) (s : Sign) (b : BitVec 8)
    (f : BitVec 23) (hfits : b ≠ 0#8 → b ≠ 255#8 → Fits bound (2 ^ 23 + f.toNat) (b.toNat - 150))
    (hlast : b = 255#8 → f ≠ 0#23) : AtMost bound (number s b f) := by
  unfold number
  by_cases hmax : b = 255#8
  · rw [if_pos hmax, if_neg (hlast hmax)]
    trivial
  rw [if_neg hmax]
  by_cases hzero : b = 0#8
  · rw [if_pos hzero]
    by_cases hf : f = 0#23
    · rw [dif_pos hf]
      trivial
    · rw [dif_neg hf]
      have hlt := f.isLt
      change f.toNat * 2 ^ 0 ≤ bound * 2 ^ 149
      omega
  · rw [if_neg hzero]
    exact hfits hzero hmax

/-- Packing keeps to the bound. -/
theorem atMost_unpack_pack (hpos : 0 < bound) (hbound : bound < 2 ^ 24) {u : UnpackedFloat}
    (hmost : AtMost bound u) : AtMost bound (unpackBits (packBits u)) := by
  cases u with
  | notANumber => trivial
  | infinity s => exact hmost.elim
  | zero s => cases s <;> trivial
  | finite s m e hm =>
    have hlog := Fits.log2_lt hmost hbound hm
    have hinside : ¬ 2 ^ Format.binary32.exponentBits ≤ (e + Format.binary32.exponentBias
        + Format.binary32.mantissaBitsWithoutImplicit).toNat + 1 := by
      change ¬ 256 ≤ (e + 127 + 23).toNat + 1
      omega
    unfold packBits pack
    simp only
    rw [if_neg hinside]
    split
    · rename_i hnormal
      have hnormal : m.log2 = 23 := Nat.succ.inj hnormal
      obtain ⟨hlow, hhigh⟩ := (Nat.log2_eq_iff (Nat.ne_of_gt hm)).mp hnormal
      have hm' : 2 ^ 23 + (BitVec.ofNat 23 m).toNat = m := by
        rw [BitVec.toNat_ofNat]
        omega
      have he' : (BitVec.ofNat 8 (e + 127 + 23).toNat).toNat = (e + 127 + 23).toNat := by
        rw [BitVec.toNat_ofNat]
        omega
      rw [unpackBits_packComponents]
      apply atMost_number hpos hbound
      · intro hnonzero _
        have hbiased : (e + 127 + 23).toNat ≠ 0 := fun hzero => hnonzero (by
          apply BitVec.eq_of_toNat_eq
          exact he'.trans hzero)
        have hback : ((e + 127 + 23).toNat : Int) - 150 = e := by omega
        rw [hm']
        change Fits bound m ((BitVec.ofNat 8 (e + 127 + 23).toNat).toNat - 150)
        rw [he', hback]
        exact hmost
      · intro hlast
        have htop : (e + 127 + 23).toNat = 255 := he'.symm.trans (congrArg BitVec.toNat hlast)
        omega
    · rw [unpackBits_packComponents]
      exact atMost_number hpos hbound _ _ _ (fun h => (h rfl).elim) fun h => by cases h

/-! ## Arithmetic -/

/-- Multiplication keeps to the product of the bounds. -/
theorem atMost_mul (hbound : bound * bound' < 2 ^ 24) {u v : UnpackedFloat}
    (hu : AtMost bound u) (hv : AtMost bound' v) :
    AtMost (bound * bound') (mul Format.binary32 u v) := by
  cases u with
  | notANumber => trivial
  | infinity s => exact hu.elim
  | zero s =>
    cases v with
    | notANumber => trivial
    | infinity s' => exact hv.elim
    | zero s' => trivial
    | finite s' m' e' hm' => trivial
  | finite s m e hm =>
    cases v with
    | notANumber => trivial
    | infinity s' => exact hv.elim
    | zero s' => trivial
    | finite s' m' e' hm' =>
      exact atMost_roundWithAccuracy hbound (Nat.mul_pos hm hm') (Fits.mul hu hv) _

/-- A signed mantissa of small magnitude. -/
theorem atMost_normalize (hbound : bound < 2 ^ 24) {k : Int} (hfits : Fits bound k.natAbs e)
    (s : Sign) : AtMost bound (UnpackedFloat.normalize Format.binary32 k e s) := by
  unfold UnpackedFloat.normalize
  split
  · rename_i hlt
    have hneg := Int.compare_eq_lt.mp hlt
    have habs : (-k).toNat = k.natAbs := by omega
    exact atMost_round hbound (by omega) (habs ▸ hfits) _
  · trivial
  · rename_i hgt
    have hpos := Int.compare_eq_gt.mp hgt
    have habs : k.toNat = k.natAbs := by omega
    exact atMost_round hbound (by omega) (habs ▸ hfits) _

/-- A sign leaves the magnitude. -/
theorem natAbs_apply (s : Sign) (m : Nat) : (s.apply m).natAbs = m := by
  cases s with
  | negative => exact Int.natAbs_neg m
  | positive => rfl

/-- Addition keeps to the sum of the bounds. -/
theorem atMost_add (hbound : bound + bound' < 2 ^ 24) {u v : UnpackedFloat}
    (hu : AtMost bound u) (hv : AtMost bound' v) :
    AtMost (bound + bound') (add Format.binary32 u v) := by
  cases u with
  | notANumber => trivial
  | infinity s => exact hu.elim
  | zero s =>
    cases v with
    | notANumber => trivial
    | infinity s' => exact hv.elim
    | zero s' => cases s <;> cases s' <;> trivial
    | finite s' m' e' hm' => exact Fits.mono hv (Nat.le_add_left _ _)
  | finite s m e hm =>
    cases v with
    | notANumber => trivial
    | infinity s' => exact hv.elim
    | zero s' => exact Fits.mono hu (Nat.le_add_right _ _)
    | finite s' m' e' hm' =>
      refine atMost_normalize hbound ?_ .positive
      have hsum := (Fits.align hu (Int.min_le_left e e')).add
        (Fits.align hv (Int.min_le_right e e'))
      refine Nat.le_trans (Nat.mul_le_mul_right _ ?_) hsum
      refine Nat.le_trans (Int.natAbs_add_le _ _) ?_
      exact Nat.add_le_add (Nat.le_of_eq (natAbs_apply _ _)) (Nat.le_of_eq (natAbs_apply _ _))

/-- An integer is at most any bound on it. -/
theorem atMost_ofNat (hbound : bound < 2 ^ 24) (hle : n ≤ bound) :
    AtMost bound (UnpackedFloat.ofNat Format.binary32 n) :=
  atMost_normalize (k := (n : Int)) hbound (fits_natCast.mpr hle) .positive

/-! ## Truncation -/

/-- Clamping into a word makes nothing larger. -/
theorem toNat_ofNatClamp_le (k : Nat) : (UInt32.ofNatClamp k).toNat ≤ k := by
  unfold UInt32.ofNatClamp
  split
  · exact Nat.le_refl _
  · rename_i hlarge
    change 2 ^ 32 - 1 ≤ k
    have hsize : UInt32.size = 2 ^ 32 := rfl
    omega

/-- A number truncates to the integral part of its magnitude, with its sign. -/
theorem toInt_finite (s : Sign) {hm : 0 < m} (low high : Int) :
    toInt low high (.finite s m e hm) = s.apply (m * 2 ^ e.toNat / 2 ^ (-e).toNat : Nat) := by
  have hexponent : (0 - (e - ((e - 0).toNat : Int))).toNat = (-e).toNat := by omega
  unfold UnpackedFloat.toInt roundToInt decreaseExponent shiftToExponent
  simp only
  rw [(truncates_shift _ _).mantissa, Nat.shiftLeft_eq, hexponent, Int.sub_zero]

/-- Truncation keeps to the bound. -/
theorem toUInt32_le {u : UnpackedFloat} (hmost : AtMost bound u) : u.toUInt32.toNat ≤ bound := by
  refine Nat.le_trans (toNat_ofNatClamp_le _) ?_
  cases u with
  | notANumber => exact Nat.zero_le _
  | infinity s => exact hmost.elim
  | zero s => exact Nat.zero_le _
  | finite s m e hm =>
    have hquotient : m * 2 ^ e.toNat / 2 ^ (-e).toNat ≤ bound :=
      Nat.div_le_of_le_mul (Nat.mul_comm bound _ ▸ hmost)
    rw [toInt_finite]
    generalize m * 2 ^ e.toNat / 2 ^ (-e).toNat = k at hquotient ⊢
    cases s with
    | negative =>
      simp only [Sign.apply]
      omega
    | positive => exact hquotient

/-- Negative numbers truncate to zero. -/
theorem toUInt32_negative {hm : 0 < m} :
    (UnpackedFloat.finite .negative m e hm).toUInt32.toNat = 0 := by
  refine Nat.le_zero.mp (Nat.le_trans (toNat_ofNatClamp_le _) ?_)
  rw [toInt_finite]
  generalize m * 2 ^ e.toNat / 2 ^ (-e).toNat = k
  simp only [Sign.apply]
  omega

end PixelPipeline.Binary32
