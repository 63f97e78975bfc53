import PixelPipeline.Binary32.Basic

/-!
# Numbers and their bits

Core computes with unpacked numbers: a sign, a mantissa and an exponent, or a
zero, an infinity, or NaN.  `unpacked` reads the bits of a `Binary32` that way.
Packing what was read loses nothing but the payload of a NaN
(`unpack_pack_unpack`), so an operation on `Binary32` is the operation on unpacked
numbers, packed and read again (`unpacked_mul`, `unpacked_add`), and comparisons
compare unpacked numbers.  From here on a computation can be followed without its
bits.
-/

namespace PixelPipeline.Binary32

open Float.Model (UnpackedFloat Format)
open Float.Model.UnpackedFloat

/-- The number that some bits mean. -/
abbrev unpackBits (b : BitVec 32) : UnpackedFloat := unpack Format.binary32 b

/-- The bits of a number. -/
abbrev packBits (u : UnpackedFloat) : BitVec 32 := pack Format.binary32 u

/-- The number that the bits mean. -/
def unpacked (x : Binary32) : UnpackedFloat := unpackBits x.bits.toBitVec

/-- The sign field. -/
abbrev signField (b : BitVec 32) : Sign := .ofBitVec (@unpackSign Format.binary32 b)

/-- The exponent field. -/
abbrev exponentField (b : BitVec 32) : BitVec 8 := @unpackExponent Format.binary32 b

/-- The fraction field. -/
abbrev fractionField (b : BitVec 32) : BitVec 23 := @unpackMantissa Format.binary32 b

/-- What fields mean together. -/
def number (s : Sign) (e : BitVec 8) (m : BitVec 23) : UnpackedFloat :=
  if e = 255#8 then if m = 0#23 then .infinity s else .notANumber
  else if e = 0#8 then
    if h : m = 0#23 then .zero s
    else .finite s m.toNat (-149) (by simpa [BitVec.toNat_pos, BitVec.pos_iff_ne_zero])
  else .finite s (2 ^ 23 + m.toNat) (e.toNat - 150) (by omega)

/-! ## Reading -/

/-- A fraction behind its leading bit. -/
theorem toNat_leading (m : BitVec 23) : (1#1 ++ m).toNat = 2 ^ 23 + m.toNat := by
  rw [BitVec.toNat_append, Nat.shiftLeft_eq]
  change 2 ^ 23 ||| m.toNat = _
  rw [Nat.or_comm, Nat.or_two_pow_eq_add_of_lt m.isLt, Nat.add_comm]

/-- Finite numbers with equal mantissas and exponents are equal. -/
theorem finite_congr {s : Sign} {m m' : Nat} {e e' : Int} {hpos : 0 < m} {hpos' : 0 < m'}
    (hm : m = m') (he : e = e') : finite s m e hpos = finite s m' e' hpos' := by
  subst hm he
  rfl

/-- Bits are read field by field. -/
theorem unpackBits_eq (b : BitVec 32) :
    unpackBits b = number (signField b) (exponentField b) (fractionField b) := by
  have hlast : -1#8 = 255#8 := rfl
  unfold unpackBits unpack number
  rw [hlast]
  by_cases hmax : exponentField b = 255#8
  · rw [if_pos hmax, if_pos hmax]
  · rw [if_neg hmax, if_neg hmax]
    by_cases hzero : exponentField b = 0#8
    · rw [if_pos hzero, if_pos hzero]
      by_cases hm : fractionField b = 0#23
      · rw [dif_pos hm, dif_pos hm]
      · rw [dif_neg hm, dif_neg hm]
        refine finite_congr rfl ?_
        change ((exponentField b).toNat : Int) - (127 + 23) + 1 = -149
        rw [hzero]
        rfl
    · rw [if_neg hzero, if_neg hzero]
      exact finite_congr (toNat_leading _) rfl

/-- The sign of packed fields is the sign that was packed. -/
theorem unpackSign_packComponents (s : Sign) (e : BitVec 8) (m : BitVec 23) :
    signField (packComponents Format.binary32 s e m) = s := by
  have hsign : @unpackSign Format.binary32 (packComponents Format.binary32 s e m)
      = s.toBitVec := by
    change (s.toBitVec ++ e ++ m).extractLsb' 31 1 = s.toBitVec
    rw [BitVec.extractLsb'_append_eq_of_le (by decide),
      BitVec.extractLsb'_append_eq_of_le (by decide)]
    cases s with
    | negative => rfl
    | positive => rfl
  unfold signField
  rw [hsign]
  cases s with
  | negative => rfl
  | positive => rfl

/-- Packed fields are read as the number they are. -/
theorem unpackBits_packComponents (s : Sign) (e : BitVec 8) (m : BitVec 23) :
    unpackBits (packComponents Format.binary32 s e m) = number s e m := by
  rw [unpackBits_eq, unpackSign_packComponents]
  unfold exponentField fractionField
  rw [unpackMantissa_packComponents, unpackExponent_packComponents]

/-! ## Packing -/

/-- A mantissa with its leading digit has 24 digits. -/
theorem log2_leading (m : BitVec 23) : (2 ^ 23 + m.toNat).log2 = 23 := by
  have hlt := m.isLt
  exact (Nat.log2_eq_iff (by omega)).mpr ⟨by omega, by omega⟩

/-- Packing what fields mean gives the fields back, unless they mean NaN. -/
theorem packBits_number (s : Sign) (e : BitVec 8) (m : BitVec 23)
    (hnumber : e ≠ 255#8 ∨ m = 0#23) :
    packBits (number s e m) = packComponents Format.binary32 s e m := by
  unfold number
  by_cases hmax : e = 255#8
  · have hm : m = 0#23 := hnumber.resolve_left (· hmax)
    rw [if_pos hmax, if_pos hm, hmax, hm]
    rfl
  rw [if_neg hmax]
  by_cases hzero : e = 0#8
  · rw [if_pos hzero]
    by_cases hm : m = 0#23
    · rw [dif_pos hm, hzero, hm]
      rfl
    · have hpos : m.toNat ≠ 0 := fun h => hm (BitVec.eq_of_toNat_eq h)
      have hlog : m.toNat.log2 < 23 := (Nat.log2_lt hpos).mpr m.isLt
      have hsubnormal : ¬ m.toNat.log2 + 1 = Format.binary32.mantissaBits := by
        change ¬ m.toNat.log2 + 1 = 24
        omega
      rw [dif_neg hm]
      unfold packBits pack
      simp only
      rw [if_neg (by decide), if_neg hsubnormal, hzero, BitVec.ofNat_toNat, BitVec.setWidth_eq]
  · have hpos : e.toNat ≠ 0 := fun h => hzero (BitVec.eq_of_toNat_eq h)
    have hne : e.toNat ≠ 255 := fun h => hmax (BitVec.eq_of_toNat_eq h)
    have hlt := e.isLt
    have hbiased : ((e.toNat : Int) - 150 + Format.binary32.exponentBias
        + Format.binary32.mantissaBitsWithoutImplicit).toNat = e.toNat := by
      change ((e.toNat : Int) - 150 + 127 + 23).toNat = e.toNat
      omega
    have hinside : ¬ 2 ^ Format.binary32.exponentBits ≤ e.toNat + 1 := by
      change ¬ 256 ≤ e.toNat + 1
      omega
    have hm : BitVec.ofNat 23 (2 ^ 23 + m.toNat) = m := by
      apply BitVec.eq_of_toNat_eq
      rw [BitVec.toNat_ofNat]
      have hltm := m.isLt
      omega
    rw [if_neg hzero]
    unfold packBits pack
    simp only [hbiased, log2_leading]
    rw [if_neg hinside, if_pos (by rfl), hm, BitVec.ofNat_toNat, BitVec.setWidth_eq]

/-- Packing what was read loses nothing. -/
theorem unpack_pack_unpack (b : BitVec 32) :
    unpackBits (packBits (unpackBits b)) = unpackBits b := by
  rw [unpackBits_eq b]
  by_cases hnumber : exponentField b ≠ 255#8 ∨ fractionField b = 0#23
  · rw [packBits_number _ _ _ hnumber, unpackBits_packComponents]
  · obtain ⟨hmax, hm⟩ := not_or.mp hnumber
    have hnan : number (signField b) (exponentField b) (fractionField b) = .notANumber := by
      unfold number
      rw [if_pos (Decidable.not_not.mp hmax), if_neg hm]
    rw [hnan]
    rfl

/-! ## Fields in numbers -/

/-- The exponent field as a part of the number that the bits are. -/
theorem toNat_exponentField (b : BitVec 32) :
    (exponentField b).toNat = b.toNat / 2 ^ 23 % 2 ^ 8 := by
  change (b.extractLsb 30 23).toNat = _
  rw [BitVec.extractLsb_toNat, Nat.shiftRight_eq_div_pow]

/-- The fraction field as a part of the number that the bits are. -/
theorem toNat_fractionField (b : BitVec 32) : (fractionField b).toNat = b.toNat % 2 ^ 23 := by
  change (b.extractLsb 22 0).toNat = _
  rw [BitVec.extractLsb_toNat, Nat.shiftRight_zero]

variable {x : Binary32}

/-- The bits without the sign. -/
theorem toNat_magnitudeBits (x : Binary32) : x.magnitudeBits.toNat = x.bits.toNat % 2 ^ 31 := by
  unfold magnitudeBits
  rw [UInt32.toNat_and]
  exact Nat.and_two_pow_sub_one_eq_mod _ 31

/-- The bits of a NaN mean no number. -/
theorem unpacked_of_isNaN (hnan : x.isNaN = true) : x.unpacked = .notANumber := by
  have hlt : 0x7f800000 < x.bits.toNat % 2 ^ 31 := by
    rw [← toNat_magnitudeBits]
    exact UInt32.lt_iff_toNat_lt.mp (of_decide_eq_true hnan)
  have hexponent := toNat_exponentField x.bits.toBitVec
  have hfraction := toNat_fractionField x.bits.toBitVec
  rw [UInt32.toNat_toBitVec] at hexponent hfraction
  have hmax : exponentField x.bits.toBitVec = 255#8 := by
    apply BitVec.eq_of_toNat_eq
    rw [hexponent]
    change _ = 255
    omega
  have hsome : fractionField x.bits.toBitVec ≠ 0#23 := by
    intro hzero
    rw [hzero] at hfraction
    change 0 = _ at hfraction
    omega
  unfold unpacked
  rw [unpackBits_eq]
  unfold number
  rw [if_pos hmax, if_neg hsome]

/-- A quieted NaN is NaN. -/
theorem isNaN_quiet (hnan : x.isNaN = true) : x.quiet.isNaN = true := by
  have hlt : 0x7f800000 < (x.bits &&& 0x7fffffff).toNat :=
    UInt32.lt_iff_toNat_lt.mp (of_decide_eq_true hnan)
  refine decide_eq_true (UInt32.lt_iff_toNat_lt.mpr ?_)
  change 0x7f800000 < ((x.bits ||| 0x00400000) &&& 0x7fffffff).toNat
  rw [UInt32.toNat_and, UInt32.toNat_or, Nat.and_or_distrib_right]
  rw [UInt32.toNat_and] at hlt
  exact Nat.lt_of_lt_of_le hlt Nat.left_le_or

/-! ## Operations -/

/-- Core computes with the number that the bits mean. -/
theorem unpack_toFloat32 (x : Binary32) : x.toFloat32.toModel.unpack = x.unpacked :=
  unpack_pack_unpack x.bits.toBitVec

/-- A computed number is what was computed. -/
theorem unpacked_ofFloat32 (v : Float32) : (ofFloat32 v).unpacked = v.toModel.unpack := by
  unfold ofFloat32
  by_cases hnan : v.isNaN = true
  · have hmodel : v.toModel.unpack.isNaN = true := hnan
    rw [if_pos hnan]
    generalize v.toModel.unpack = u at hmodel ⊢
    cases u with
    | notANumber => rfl
    | infinity s => cases hmodel
    | zero s => cases hmodel
    | finite s m e hm => cases hmodel
  · rw [if_neg hnan]
    rfl

/-- An operation that hands on NaN is the operation on numbers. -/
theorem unpacked_lift {op : Float32 → Float32 → Float32}
    {compute : UnpackedFloat → UnpackedFloat → UnpackedFloat}
    (hop : ∀ v w, (op v w).toModel = .pack (compute v.toModel.unpack w.toModel.unpack))
    (hleft : ∀ u, compute .notANumber u = .notANumber)
    (hright : ∀ u, compute u .notANumber = .notANumber) (x y : Binary32) :
    (lift op x y).unpacked = unpackBits (packBits (compute x.unpacked y.unpacked)) := by
  unfold lift
  by_cases hx : x.isNaN = true
  · rw [if_pos hx, unpacked_of_isNaN (isNaN_quiet hx), unpacked_of_isNaN hx, hleft]
    rfl
  rw [if_neg hx]
  by_cases hy : y.isNaN = true
  · rw [if_pos hy, unpacked_of_isNaN (isNaN_quiet hy), unpacked_of_isNaN hy, hright]
    rfl
  rw [if_neg hy, unpacked_ofFloat32, hop, unpack_toFloat32, unpack_toFloat32]
  rfl

/-- Multiplication multiplies the unpacked numbers and packs the result. -/
theorem unpacked_mul (x y : Binary32) :
    (x * y).unpacked = unpackBits (packBits (mul Format.binary32 x.unpacked y.unpacked)) :=
  unpacked_lift (fun _ _ => rfl) (fun _ => rfl) (fun u => by cases u <;> rfl) x y

/-- Addition adds the unpacked numbers and packs the result. -/
theorem unpacked_add (x y : Binary32) :
    (x + y).unpacked = unpackBits (packBits (add Format.binary32 x.unpacked y.unpacked)) :=
  unpacked_lift (fun _ _ => rfl) (fun _ => rfl) (fun u => by cases u <;> rfl) x y

/-- The order looks at unpacked numbers. -/
theorem lt_eq (x y : Binary32) : lt x y = x.unpacked.lt y.unpacked := by
  unfold lt
  rw [← unpack_toFloat32 x, ← unpack_toFloat32 y]
  exact Bool.decide_eq_true

/-- The order with equality looks at unpacked numbers. -/
theorem le_eq (x y : Binary32) : le x y = x.unpacked.le y.unpacked := by
  unfold le
  rw [← unpack_toFloat32 x, ← unpack_toFloat32 y]
  exact Bool.decide_eq_true

/-- Comparison for equality looks at unpacked numbers. -/
theorem eq_eq (x y : Binary32) : eq x y = x.unpacked.beq y.unpacked := by
  unfold eq
  rw [← unpack_toFloat32 x, ← unpack_toFloat32 y]
  rfl

/-- Conversion to a word looks at the unpacked number. -/
theorem toUInt32_eq (x : Binary32) : x.toUInt32 = x.unpacked.toUInt32 := by
  rw [← unpack_toFloat32 x]
  rfl

end PixelPipeline.Binary32
