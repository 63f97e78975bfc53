import PixelPipeline.Binary16
import PixelPipeline.Proofs.Binary32.Integral

/-!
# Halves and their numbers

Widening a half is exact, so narrowing the result gives the half back (`ofBinary32_toBinary32`).
The one exception are the NaNs that are not quiet, and narrowing never gives one of those
(`settled_ofBinary32`).
-/

namespace PixelPipeline.Binary16

open Float.Model (UnpackedFloat Format totalExponent)
open Float.Model.UnpackedFloat
open Binary32 (integral)

variable {n : Nat} {x : Binary32} {half : UInt16}

/-! ## Narrowing -/

/-- Cutting off zeros loses nothing. -/
theorem shiftNearestEven_mul (n shift : Nat) : shiftNearestEven (n * 2 ^ shift) shift = n := by
  have hpow := Nat.two_pow_pos shift
  unfold shiftNearestEven
  rw [Nat.mul_mod_left, if_pos (by omega), Nat.shiftRight_eq_div_pow, Nat.mul_div_cancel _ hpow]

/-- The bits of a half apart from its sign, from the fields of a number. -/
def magnitudeOf (exponent fraction : Nat) : Nat :=
  if exponent = 255 then (if fraction = 0 then infinityBits else nanBits fraction)
  else magnitudeBits exponent fraction

/-- The magnitudes that narrowing gives: numbers, infinity and the quiet NaNs. -/
def SettledMagnitude (magnitude : Nat) : Prop :=
  magnitude ≤ infinityBits ∨ quietNaNBits ≤ magnitude ∧ magnitude < 2 ^ 15

/-- The magnitudes that narrowing gives are settled: no NaN among them signals. -/
theorem settledMagnitude_magnitudeOf (exponent fraction : Nat) :
    SettledMagnitude (magnitudeOf exponent fraction) := by
  unfold SettledMagnitude magnitudeOf
  split
  · split
    · exact .inl (Nat.le_refl _)
    · refine .inr ?_
      unfold nanBits quietNaNBits
      omega
  · exact .inl (Nat.min_le_left _ _)

/-- A half is a sign and a magnitude. -/
theorem toNat_ofBinary32 (x : Binary32) : (ofBinary32 x).toNat
    = x.bits.toNat / 2 ^ 31 * 2 ^ 15
      + magnitudeOf (x.bits.toNat / 2 ^ 23 % 2 ^ 8) (x.bits.toNat % 2 ^ 23) := by
  have hsettled := settledMagnitude_magnitudeOf (x.bits.toNat / 2 ^ 23 % 2 ^ 8)
    (x.bits.toNat % 2 ^ 23)
  have hlt := x.bits.toNat_lt
  unfold SettledMagnitude infinityBits at hsettled
  change (x.bits.toNat / 2 ^ 31 * 2 ^ 15
      + magnitudeOf (x.bits.toNat / 2 ^ 23 % 2 ^ 8) (x.bits.toNat % 2 ^ 23)) % 2 ^ 16 = _
  omega

/-- A half that is no signalling NaN. -/
def Settled (half : UInt16) : Prop := SettledMagnitude (half.toNat % 2 ^ 15)

/-- **Narrowing gives no signalling NaN.** -/
theorem settled_ofBinary32 (x : Binary32) : Settled (ofBinary32 x) := by
  have hsettled := settledMagnitude_magnitudeOf (x.bits.toNat / 2 ^ 23 % 2 ^ 8)
    (x.bits.toNat % 2 ^ 23)
  have hword : (ofBinary32 x).toNat % 2 ^ 15
      = magnitudeOf (x.bits.toNat / 2 ^ 23 % 2 ^ 8) (x.bits.toNat % 2 ^ 23) := by
    rw [toNat_ofBinary32]
    unfold SettledMagnitude infinityBits at hsettled
    omega
  unfold Settled
  rw [hword]
  exact hsettled

/-! ## Widening -/

/-- The exponent and the fraction of a number whose mantissa is full. -/
theorem fields_of_unpacked {s : Sign} {m : Nat} {e : Int} {hm : 0 < m}
    (hunpack : x.unpacked = .finite s m e hm) (hfull : 2 ^ 23 ≤ m) :
    ((x.bits.toNat / 2 ^ 23 % 2 ^ 8 : Nat) : Int) = e + 150 ∧
      2 ^ 23 + x.bits.toNat % 2 ^ 23 = m ∧ (s = .positive → x.bits.toNat < 2 ^ 31) := by
  have hexponent := Binary32.toNat_exponentField x.bits.toBitVec
  have hfraction := Binary32.toNat_fractionField x.bits.toBitVec
  rw [UInt32.toNat_toBitVec] at hexponent hfraction
  have hlt := (Binary32.fractionField x.bits.toBitVec).isLt
  unfold Binary32.unpacked at hunpack
  rw [Binary32.unpackBits_eq] at hunpack
  generalize Binary32.exponentField x.bits.toBitVec = exponent at hexponent hunpack
  unfold Binary32.number at hunpack
  -- infinities and NaNs are no finite numbers, and subnormal mantissas are not full
  by_cases hspecial : exponent = 255#8
  · rw [if_pos hspecial] at hunpack
    by_cases hnone : Binary32.fractionField x.bits.toBitVec = 0#23
    · rw [if_pos hnone] at hunpack
      cases hunpack
    · rw [if_neg hnone] at hunpack
      cases hunpack
  rw [if_neg hspecial] at hunpack
  by_cases hzero : exponent = 0#8
  · rw [if_pos hzero] at hunpack
    by_cases hnone : Binary32.fractionField x.bits.toBitVec = 0#23
    · rw [dif_pos hnone] at hunpack
      cases hunpack
    · rw [dif_neg hnone] at hunpack
      obtain ⟨-, rfl, -⟩ := UnpackedFloat.finite.inj hunpack
      omega
  · rw [if_neg hzero] at hunpack
    obtain ⟨hsign, hmantissa, hbiased⟩ := UnpackedFloat.finite.inj hunpack
    refine ⟨by omega, by omega, fun hpositive => Nat.lt_of_not_le fun hle => ?_⟩
    have hnegative := Binary32.signField_of_le (b := x.bits.toBitVec) hle
    rw [hsign, hpositive] at hnegative
    cases hnegative

/-- A subnormal half times its unit, which is not rounded. -/
theorem unpacked_subnormal (hn : 0 < n) (hlt : n < 2 ^ 10) :
    (Binary32.ofNat n * subnormalUnit).unpacked
      = .finite .positive (n * 2 ^ (23 - n.log2)) (n.log2 - 47)
          (Nat.mul_pos hn (Nat.two_pow_pos _)) := by
  have hunit : subnormalUnit.unpacked = .finite .positive (2 ^ 23) (-47) (by decide) := rfl
  have hlog : n.log2 < 10 := (Nat.log2_lt (Nat.ne_of_gt hn)).mpr hlt
  have hpos : 0 < n * 2 ^ (23 - n.log2) := Nat.mul_pos hn (Nat.two_pow_pos _)
  have hlogFull : (n * 2 ^ (23 - n.log2)).log2 = 23 := by
    rw [Binary32.log2_mul_two_pow (Nat.ne_of_gt hn)]
    omega
  have hback : (n.log2 : Int) - 23 + -47 + ((23 : Nat) : Int) = n.log2 - 47 := by omega
  have hproduct : mul Format.binary32 (integral .positive n) subnormalUnit.unpacked
      = .finite .positive (n * 2 ^ (23 - n.log2)) (n.log2 - 47) hpos := by
    rw [Binary32.integral_pos _ hn, hunit]
    refine (Binary32.roundWithAccuracy_exact 23 hpos ?_ ?_).trans (Binary32.finite_congr rfl hback)
    · rw [hback]
      change max (((n * 2 ^ (23 - n.log2) * 2 ^ 23).log2 : Int) + 1 + (n.log2 - 23 + -47) - 24)
        (-149) = _
      rw [Binary32.log2_mul_two_pow (Nat.ne_of_gt hpos), hlogFull]
      omega
    · rw [hback]
      change max (((n * 2 ^ (23 - n.log2)).log2 : Int) + 1 + (n.log2 - 47) - 24) (-149) = _
      rw [hlogFull]
      omega
  obtain ⟨hlow, hhigh⟩ := Binary32.integral_full hn (Nat.lt_trans hlt (by decide))
  rw [Binary32.unpacked_mul, Binary32.unpacked_ofNat (Nat.lt_trans hlt (by decide)), hproduct,
    Binary32.unpack_pack_full hlow hhigh (by omega) (by omega)]

/-- The number of a half without its sign. -/
def widened (exponent fraction : Nat) : Binary32 :=
  if exponent = 0 then Binary32.ofNat fraction * subnormalUnit
  else
    let wide := if exponent = 31 then 255 else exponent + 112
    ⟨(wide * 2 ^ 23 + fraction * 2 ^ 13).toUInt32⟩

/-- The magnitude bits that the bits of a number are narrowed to. -/
def narrowed (bits : Nat) : Nat := magnitudeOf (bits / 2 ^ 23 % 2 ^ 8) (bits % 2 ^ 23)

/-- A number below `2 ^ 32` is a word. -/
theorem toNat_word (hlt : n < 2 ^ 32) : n.toUInt32.toNat = n := Nat.mod_eq_of_lt hlt

/-- A subnormal magnitude is widened and narrowed to itself. -/
theorem narrowed_subnormal (hlt : n < 2 ^ 10) :
    (widened 0 n).bits.toNat < 2 ^ 31 ∧ narrowed (widened 0 n).bits.toNat = n := by
  by_cases hzero : n = 0
  · subst hzero
    exact ⟨by decide, by decide⟩
  have hn : 0 < n := Nat.pos_of_ne_zero hzero
  have hlog : n.log2 < 10 := (Nat.log2_lt hzero).mpr hlt
  obtain ⟨hlow, hhigh⟩ := Binary32.integral_full hn (Nat.lt_trans hlt (by decide))
  have hproduct : widened 0 n = Binary32.ofNat n * subnormalUnit := if_pos rfl
  obtain ⟨hexponent, hfraction, hsign⟩ := fields_of_unpacked (unpacked_subnormal hn hlt) hlow
  rw [hproduct]
  generalize (Binary32.ofNat n * subnormalUnit).bits.toNat = bits at hexponent hfraction hsign ⊢
  have hfield : bits / 2 ^ 23 % 2 ^ 8 = n.log2 + 103 := by omega
  have hbase : n.log2 + 103 - 113 = 0 := by omega
  have hshift : 13 + (113 - max (n.log2 + 103) 1) = 23 - n.log2 := by omega
  refine ⟨hsign rfl, ?_⟩
  unfold narrowed magnitudeOf magnitudeBits
  rw [hfield, if_neg (by omega), if_neg (by omega), hfraction, hbase, hshift]
  dsimp only
  rw [shiftNearestEven_mul]
  unfold infinityBits
  omega

/-- A normal magnitude is widened and narrowed to itself. -/
theorem narrowed_normal {exponent : Nat} (hpos : 0 < exponent) (hmax : exponent < 31)
    (hlt : n < 2 ^ 10) :
    (widened exponent n).bits.toNat < 2 ^ 31 ∧
      narrowed (widened exponent n).bits.toNat = exponent * 2 ^ 10 + n := by
  have hbits : (widened exponent n).bits.toNat = (exponent + 112) * 2 ^ 23 + n * 2 ^ 13 := by
    unfold widened
    rw [if_neg (by omega), if_neg (by omega)]
    exact toNat_word (by omega)
  have hexponent : ((exponent + 112) * 2 ^ 23 + n * 2 ^ 13) / 2 ^ 23 % 2 ^ 8 = exponent + 112 := by
    omega
  have hfraction : ((exponent + 112) * 2 ^ 23 + n * 2 ^ 13) % 2 ^ 23 = n * 2 ^ 13 := by omega
  have hsignificand : 2 ^ 23 + n * 2 ^ 13 = (2 ^ 10 + n) * 2 ^ 13 := by omega
  have hshift : 13 + (113 - max (exponent + 112) 1) = 13 := by omega
  rw [hbits]
  refine ⟨by omega, ?_⟩
  unfold narrowed magnitudeOf magnitudeBits
  rw [hexponent, hfraction, if_neg (by omega), if_neg (by omega), hshift, hsignificand]
  dsimp only
  rw [shiftNearestEven_mul]
  unfold infinityBits
  omega

/-- Infinities and quiet NaNs are widened and narrowed to themselves. -/
theorem narrowed_special (hlt : n < 2 ^ 10) (hquiet : n = 0 ∨ 2 ^ 9 ≤ n) :
    (widened 31 n).bits.toNat = 255 * 2 ^ 23 + n * 2 ^ 13 ∧
      narrowed (widened 31 n).bits.toNat = 31 * 2 ^ 10 + n := by
  have hbits : (widened 31 n).bits.toNat = 255 * 2 ^ 23 + n * 2 ^ 13 := by
    unfold widened
    rw [if_neg (by decide), if_pos rfl]
    exact toNat_word (by omega)
  have hexponent : (255 * 2 ^ 23 + n * 2 ^ 13) / 2 ^ 23 % 2 ^ 8 = 255 := by omega
  have hfraction : (255 * 2 ^ 23 + n * 2 ^ 13) % 2 ^ 23 = n * 2 ^ 13 := by omega
  refine ⟨hbits, ?_⟩
  rw [hbits]
  unfold narrowed magnitudeOf
  rw [hexponent, hfraction, if_pos rfl]
  rcases hquiet with rfl | hquiet
  · rfl
  · rw [if_neg (by omega)]
    unfold nanBits quietNaNBits
    omega

/-- **A magnitude is narrowed to what was widened.** -/
theorem narrowed_widened {magnitude : Nat} (hsettled : SettledMagnitude magnitude) :
    (widened (magnitude / 2 ^ 10) (magnitude % 2 ^ 10)).bits.toNat < 2 ^ 31 ∧
      narrowed (widened (magnitude / 2 ^ 10) (magnitude % 2 ^ 10)).bits.toNat = magnitude := by
  have hlt : magnitude % 2 ^ 10 < 2 ^ 10 := Nat.mod_lt _ (by decide)
  have hsplit := Nat.div_add_mod' magnitude (2 ^ 10)
  unfold SettledMagnitude infinityBits quietNaNBits at hsettled
  generalize magnitude % 2 ^ 10 = n at hlt hsplit ⊢
  generalize magnitude / 2 ^ 10 = exponent at hsplit ⊢
  rw [← hsplit]
  by_cases hzero : exponent = 0
  · subst hzero
    rw [Nat.zero_mul, Nat.zero_add]
    exact narrowed_subnormal hlt
  by_cases hmax : exponent = 31
  · subst hmax
    obtain ⟨hbits, hnarrowed⟩ := narrowed_special hlt (by omega)
    exact ⟨by omega, hnarrowed⟩
  · exact narrowed_normal (by omega) (by omega) hlt

/-! ## Signs -/

/-- A sign that is set. -/
theorem toNat_neg (hlt : x.bits.toNat < 2 ^ 31) : (-x).bits.toNat = 2 ^ 31 + x.bits.toNat := by
  have hword : (-x).bits.toNat = x.bits.toNat ^^^ 2 ^ 31 := UInt32.toNat_xor _ _
  have hhigh : (x.bits.toNat ^^^ 2 ^ 31) / 2 ^ 31 = 1 := by
    rw [Nat.xor_div_two_pow, Nat.div_eq_of_lt hlt]
    rfl
  have hlow : (x.bits.toNat ^^^ 2 ^ 31) % 2 ^ 31 = x.bits.toNat := by
    rw [Nat.xor_mod_two_pow, Nat.mod_self, Nat.mod_eq_of_lt hlt, Nat.xor_zero]
  rw [hword]
  omega

/-- A NaN that is quiet stays. -/
theorem quiet_of_quietBit (hquiet : x.bits.toNat / 2 ^ 22 % 2 = 1) : x.quiet = x := by
  have hword : x.quiet.bits.toNat = x.bits.toNat ||| 2 ^ 22 := UInt32.toNat_or _ _
  have hsame : x.bits.toNat ||| 2 ^ 22 = x.bits.toNat := by
    apply Nat.eq_of_testBit_eq
    intro i
    rw [Nat.testBit_or, Nat.testBit_two_pow]
    by_cases hi : i = 22
    · subst hi
      rw [Nat.testBit_eq_decide_div_mod_eq, hquiet]
      rfl
    · rw [decide_eq_false (Ne.symm hi), Bool.or_false]
  exact congrArg Binary32.mk (UInt32.toNat_inj.mp (hword.trans hsame))

/-- Narrowing ignores the sign, and puts it in front. -/
theorem toNat_ofBinary32_signed (hlt : x.bits.toNat < 2 ^ 31) :
    (ofBinary32 x).toNat = narrowed x.bits.toNat ∧
      (ofBinary32 (-x)).toNat = 2 ^ 15 + narrowed x.bits.toNat := by
  rw [toNat_ofBinary32, toNat_ofBinary32, toNat_neg hlt]
  generalize x.bits.toNat = bits at hlt
  have hhigh : (2 ^ 31 + bits) / 2 ^ 31 = 1 := by omega
  have hexponent : (2 ^ 31 + bits) / 2 ^ 23 % 2 ^ 8 = bits / 2 ^ 23 % 2 ^ 8 := by omega
  have hfraction : (2 ^ 31 + bits) % 2 ^ 23 = bits % 2 ^ 23 := by omega
  rw [Nat.div_eq_of_lt hlt, hhigh, hexponent, hfraction, Nat.zero_mul, Nat.zero_add, Nat.one_mul]
  exact ⟨rfl, rfl⟩

/-- Widening gives quiet NaNs only. -/
theorem quietBit_widened {magnitude : Nat} (hsettled : SettledMagnitude magnitude)
    (hnan : 0x7f800000
      < (widened (magnitude / 2 ^ 10) (magnitude % 2 ^ 10)).bits.toNat) :
    (widened (magnitude / 2 ^ 10) (magnitude % 2 ^ 10)).bits.toNat / 2 ^ 22 % 2 = 1 := by
  obtain ⟨hlt, hnarrowed⟩ := narrowed_widened hsettled
  have hlarge : quietNaNBits ≤ magnitude := by
    rw [← hnarrowed]
    generalize (widened (magnitude / 2 ^ 10) (magnitude % 2 ^ 10)).bits.toNat = bits at hlt hnan
    have hexponent : bits / 2 ^ 23 % 2 ^ 8 = 255 := by omega
    unfold narrowed magnitudeOf
    rw [hexponent, if_pos rfl, if_neg (by omega)]
    exact Nat.le_add_right _ _
  have hbound := hsettled.resolve_left
    (Nat.not_le_of_lt (Nat.lt_of_lt_of_le (by decide) hlarge))
  unfold quietNaNBits at hlarge
  have hmax : magnitude / 2 ^ 10 = 31 := by omega
  obtain ⟨hbits, -⟩ := narrowed_special (n := magnitude % 2 ^ 10) (by omega) (by omega)
  rw [hmax, hbits]
  omega

/-- A settled half is widened to its magnitude with its sign. -/
theorem toBinary32_of_settled (hsettled : Settled half) :
    toBinary32 half = if half.toNat < 2 ^ 15
      then widened (half.toNat % 2 ^ 15 / 2 ^ 10) (half.toNat % 2 ^ 15 % 2 ^ 10)
      else -widened (half.toNat % 2 ^ 15 / 2 ^ 10) (half.toNat % 2 ^ 15 % 2 ^ 10) := by
  obtain ⟨hlt, -⟩ := narrowed_widened hsettled
  have hquiet := quietBit_widened hsettled
  have hexponent : half.toNat % 2 ^ 15 / 2 ^ 10 = half.toNat / 2 ^ 10 % 2 ^ 5 := by omega
  have hfraction : half.toNat % 2 ^ 15 % 2 ^ 10 = half.toNat % 2 ^ 10 := by omega
  rw [hexponent, hfraction] at hlt hquiet ⊢
  have hunfold : toBinary32 half
      = let signed := if half.toNat < 2 ^ 15
          then widened (half.toNat / 2 ^ 10 % 2 ^ 5) (half.toNat % 2 ^ 10)
          else -widened (half.toNat / 2 ^ 10 % 2 ^ 5) (half.toNat % 2 ^ 10)
        if signed.isNaN then signed.quiet else signed := rfl
  rw [hunfold]
  generalize widened (half.toNat / 2 ^ 10 % 2 ^ 5) (half.toNat % 2 ^ 10) = x at hlt hquiet ⊢
  -- the sign is no part of what makes a NaN quiet
  obtain ⟨signed, hsigned, hbits⟩ : ∃ signed,
      (if half.toNat < 2 ^ 15 then x else -x) = signed ∧
        signed.bits.toNat % 2 ^ 31 = x.bits.toNat := by
    by_cases hsign : half.toNat < 2 ^ 15
    · exact ⟨x, if_pos hsign, Nat.mod_eq_of_lt hlt⟩
    · refine ⟨-x, if_neg hsign, ?_⟩
      rw [toNat_neg hlt]
      omega
  rw [hsigned]
  dsimp only
  by_cases hnan : signed.isNaN = true
  · have hlarge : 0x7f800000 < signed.magnitudeBits.toNat :=
      UInt32.lt_iff_toNat_lt.mp (of_decide_eq_true hnan)
    rw [Binary32.toNat_magnitudeBits, hbits] at hlarge
    have hbit := hquiet hlarge
    rw [if_pos hnan, quiet_of_quietBit (by omega)]
  · rw [if_neg hnan]

/-- **A half that was widened is narrowed to itself**, unless it is a signalling NaN. -/
theorem ofBinary32_toBinary32 (hsettled : Settled half) :
    ofBinary32 (toBinary32 half) = half := by
  have hword := half.toNat_lt
  obtain ⟨hlt, hnarrowed⟩ := narrowed_widened hsettled
  obtain ⟨hpositive, hnegative⟩ := toNat_ofBinary32_signed hlt
  rw [toBinary32_of_settled hsettled]
  apply UInt16.toNat_inj.mp
  by_cases hsign : half.toNat < 2 ^ 15
  · rw [if_pos hsign, hpositive, hnarrowed, Nat.mod_eq_of_lt hsign]
  · rw [if_neg hsign, hnegative, hnarrowed]
    omega

end PixelPipeline.Binary16
