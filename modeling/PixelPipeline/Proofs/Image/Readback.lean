import PixelPipeline.Proofs.Binary16
import PixelPipeline.Proofs.Binary32.Scaling
import PixelPipeline.Proofs.Image.Filling

/-!
# Colours that are read back

What was written is read as some value, and that value is written as the same word, in every
encoding of a component (`Component.encodeWord_decodeWord_encodeWord`).  A normalised code is
divided by the greatest code and multiplied by it again, which rounds to the code itself.  An
integer is itself as long as it fits a mantissa; with 32 bits it came from a float or from the
bound of the range, and the bound is rounded to its outside.  A float is moved as it is, and a
half is widened and narrowed.

So a texel that holds a colour, read and written again, does not change, whatever the colour
is and whatever the texel held before (`Format.encode_readback`).
-/

namespace PixelPipeline

open Binary32 (saturate rounded Whole)

/-! ## Words -/

/-- A signed integer is read from its two's complement. -/
theorem Bytes.signed_ofSigned {bits : Nat} {i : Int} (hbits : 0 < bits)
    (hlow : -(2 ^ (bits - 1) : Nat) ≤ i) (hhigh : i < (2 ^ (bits - 1) : Nat)) :
    signed bits (ofSigned bits i) = i := by
  have hpow : (2 ^ bits : Nat) = 2 * 2 ^ (bits - 1) := by
    rw [← Nat.pow_succ', Nat.succ_eq_add_one, Nat.sub_add_cancel hbits]
  have hcast : ((2 : Int) ^ bits) = (2 ^ bits : Nat) := by norm_cast
  unfold signed ofSigned
  rw [hcast, hpow]
  generalize 2 ^ (bits - 1) = half at hlow hhigh ⊢
  by_cases hneg : i < 0
  · have hmod : i % ((2 * half : Nat) : Int) = i + (2 * half : Nat) := by
      rw [← Int.add_emod_right, Int.emod_eq_of_lt (by omega) (by omega)]
    rw [hmod, if_neg (by omega)]
    omega
  · have hmod : i % ((2 * half : Nat) : Int) = i := Int.emod_eq_of_lt (by omega) (by omega)
    rw [hmod, if_pos (by omega)]
    omega

namespace Component

variable {g n high : Nat} {i : Int}

/-! ## Integers -/

/-- A natural number is converted as an integer. -/
theorem ofNat_eq_ofInt (n : Nat) : Binary32.ofNat n = Binary32.ofInt n := by
  unfold Binary32.ofInt
  rw [if_neg (by omega), Int.natAbs_natCast]

/-- Integers that are read and written stay, the greatest of the format included. -/
theorem word_ofNat_word (word : Binary32 → Nat) (hlt : g < 2 ^ 64)
    (hgreatest : ∃ j ≥ (g : Int), Whole (Binary32.ofInt g) j)
    (hword : ∀ v, (word v : Int) = saturate 0 g (rounded v)) (v : Binary32) :
    word (Binary32.ofNat (word v)) = word v := by
  have hstable := Binary32.saturate_rounded_ofInt (by decide : 0 < 2 ^ 64) hlt
    ⟨0, Int.le_refl _, rfl, rfl⟩ hgreatest v
  rw [← hword, ← hword, ← ofNat_eq_ofInt] at hstable
  exact Int.ofNat_inj.mp hstable

/-- Signed integers that are read and written stay, both bounds of the format included. -/
theorem integer_ofInt_integer (bits : Nat) (integer : Binary32 → Int) (hbits : 0 < bits)
    (hlt : bits ≤ 64)
    (hleast : ∃ j ≤ -((2 ^ (bits - 1) : Nat) : Int),
      Whole (Binary32.ofInt (-(2 ^ (bits - 1) : Nat))) j)
    (hgreatest : ∃ j ≥ ((2 ^ (bits - 1) - 1 : Nat) : Int),
      Whole (Binary32.ofInt (2 ^ (bits - 1) - 1 : Nat)) j)
    (hinteger : ∀ v, integer v = saturate (2 ^ (bits - 1)) (2 ^ (bits - 1) - 1) (rounded v))
    (v : Binary32) :
    integer (Binary32.ofInt (Bytes.signed bits (Bytes.ofSigned bits (integer v)))) = integer v := by
  have hpow : 2 ^ (bits - 1) < 2 ^ 64 := Nat.pow_lt_pow_right (by decide) (by omega)
  have hpos := Nat.two_pow_pos (bits - 1)
  have hstable := Binary32.saturate_rounded_ofInt hpow (by omega) hleast hgreatest v
  obtain ⟨hlow, hhigh⟩ := Binary32.saturate_bounds (2 ^ (bits - 1)) (2 ^ (bits - 1) - 1) (rounded v)
  rw [← hinteger] at hlow hhigh
  have hback : Bytes.signed bits (Bytes.ofSigned bits (integer v)) = integer v :=
    Bytes.signed_ofSigned hbits hlow (by omega)
  rw [hback, hinteger, hinteger v, hstable]

/-! ## Codes -/

/-- A code of the unit interval is its quotient by the greatest code, which is multiplied by the
greatest code when it is written. -/
theorem rounded_unorm (hg : 0 < g) (hlt : g < 2 ^ 16) (hn : n ≤ g) :
    rounded (Binary32.clampUnit (Binary32.ofNat n / Binary32.ofNat g) * Binary32.ofNat g) = n := by
  have hpos : (0 : ℚ) < g := Nat.cast_pos.mpr hg
  have hnear := Binary32.near_quotient (i := n) hg hlt hn
  rw [ofNat_eq_ofInt]
  refine Binary32.rounded_scaled hg hlt hn (hnear.clamp rfl rfl ?_ ?_)
  · rw [Binary32.rational_zero, Int.cast_natCast]
    exact div_nonneg (Nat.cast_nonneg n) hpos.le
  · rw [Binary32.rational_one, Int.cast_natCast, div_le_one hpos]
    exact_mod_cast hn

/-- A code of the interval from minus one to one is written as itself. -/
theorem rounded_snorm (hg : 0 < g) (hlt : g < 2 ^ 16) (hi : i.natAbs ≤ g) :
    rounded (Binary32.clamp (-Binary32.one) Binary32.one (decodeSnorm i (Binary32.ofNat g))
      * Binary32.ofNat g) = i := by
  have hpos : (0 : ℚ) < g := Nat.cast_pos.mpr hg
  have hle := Binary32.abs_cast_le hi
  have hlow : Binary32.rational (-Binary32.one) ≤ i / g := by
    rw [Binary32.rational_neg_one, le_div_iff₀ hpos, neg_one_mul]
    exact (abs_le.mp hle).1
  have hhigh : (i : ℚ) / g ≤ Binary32.rational Binary32.one := by
    rw [Binary32.rational_one, div_le_one hpos]
    exact (abs_le.mp hle).2
  have hnear := (Binary32.near_quotient hg hlt hi).larger (y := -Binary32.one) rfl hlow
  exact Binary32.rounded_scaled hg hlt hi (hnear.clamp rfl rfl hlow hhigh)

/-- A value of the interval from minus one to one is not written as the least integer. -/
theorem natAbs_rounded_snorm (hg : 0 < g) (hlt : g < 2 ^ 16) (v : Binary32) :
    (rounded (Binary32.clamp (-Binary32.one) Binary32.one v * Binary32.ofNat g)).natAbs ≤ g := by
  by_cases hnan : v.isNaN = true
  · have hproduct : (v * Binary32.ofNat g).isNaN = true := Binary32.isNaN_lift (.inl hnan)
    rw [Binary32.clamp_of_isNaN hnan, Binary32.rounded_of_isNaN hproduct]
    exact Nat.zero_le g
  have hminus : (-Binary32.one).isNaN = false := rfl
  have hone : (-Binary32.one).value = -Binary32.unitCount := rfl
  obtain ⟨hnumber, hvalue⟩ :=
    Binary32.value_clamp hminus Binary32.isNaN_one (Bool.eq_false_iff.mpr hnan)
  have hunit : (0 : Int) < Binary32.unitCount := by decide
  rw [hone, Binary32.value_one] at hvalue
  have hclamped : Binary32.Within 1 (Binary32.clamp (-Binary32.one) Binary32.one v) :=
    Binary32.within_of_value hnumber (by decide) (by omega)
  have hproduct := hclamped.mul (Binary32.within_ofNat (n := g) (by omega)) (by omega) (by omega)
  rw [Nat.one_mul] at hproduct
  exact hproduct.natAbs_rounded

/-- Codes of the unit interval that are read and written stay. -/
theorem word_unorm (word : Binary32 → Nat) (hg : 0 < g) (hlt : g < 2 ^ 16) (hhigh : g ≤ high)
    (hword : ∀ v, (word v : Int)
      = saturate 0 high (rounded (Binary32.clampUnit v * Binary32.ofNat g)))
    (hn : n ≤ g) : word (Binary32.ofNat n / Binary32.ofNat g) = n := by
  have hcode := hword (Binary32.ofNat n / Binary32.ofNat g)
  rw [rounded_unorm hg hlt hn, Binary32.saturate_eq_self (by omega) (by omega)] at hcode
  exact Int.ofNat_inj.mp hcode

/-- Codes of the interval from minus one to one that were written, and are read and written
again, stay.  The least integer is no such code: it would be read as minus one. -/
theorem integer_snorm (bits : Nat) (integer : Binary32 → Int) (hbits : 1 < bits)
    (hlt : bits ≤ 16)
    (hinteger : ∀ v, integer v = saturate (2 ^ (bits - 1)) (2 ^ (bits - 1) - 1)
      (rounded (Binary32.clamp (-Binary32.one) Binary32.one v
        * Binary32.ofNat (2 ^ (bits - 1) - 1)))) (v : Binary32) :
    integer (decodeSnorm (Bytes.signed bits (Bytes.ofSigned bits (integer v)))
      (Binary32.ofNat (2 ^ (bits - 1) - 1))) = integer v := by
  have hpow : 2 ^ (bits - 1) < 2 ^ 16 := Nat.pow_lt_pow_right (by decide) (by omega)
  have hpow' : 2 ^ 1 ≤ 2 ^ (bits - 1) := Nat.pow_le_pow_right (by decide) (by omega)
  have hbound : (integer v).natAbs ≤ 2 ^ (bits - 1) - 1 := by
    have hrounded := natAbs_rounded_snorm (g := 2 ^ (bits - 1) - 1) (by omega) (by omega) v
    rw [hinteger, Binary32.saturate_eq_self (by omega) (by omega)]
    exact hrounded
  have hback : Bytes.signed bits (Bytes.ofSigned bits (integer v)) = integer v :=
    Bytes.signed_ofSigned (by omega) (by omega) (by omega)
  rw [hback, hinteger (decodeSnorm _ _), rounded_snorm (by omega) (by omega) hbound]
  exact Binary32.saturate_eq_self (by omega) (by omega)

/-! ## Every encoding -/

/-- **What is read from a word that was written is written as that word.** -/
theorem encodeWord_decodeWord_encodeWord (c : Component) (v : Binary32) :
    c.encodeWord (c.decodeWord (c.encodeWord v)) = c.encodeWord v := by
  cases c with
  | sfloat32 =>
    change (Binary32.mk v.bits.toNat.toUInt32).bits.toNat = v.bits.toNat
    exact congrArg UInt32.toNat (UInt32.ofNat_toNat ..)
  | sfloat16 =>
    change (Binary16.ofBinary32 (Binary16.toBinary32 (Binary16.ofBinary32 v).toNat.toUInt16)).toNat
      = (Binary16.ofBinary32 v).toNat
    have hword : (Binary16.ofBinary32 v).toNat.toUInt16 = Binary16.ofBinary32 v :=
      UInt16.ofNat_toNat ..
    rw [hword, Binary16.ofBinary32_toBinary32 (Binary16.settled_ofBinary32 v)]
  | unorm8 =>
    have hdecode : ∀ n, decodeWord .unorm8 n = Binary32.ofNat n / Binary32.ofNat (2 ^ 8 - 1) :=
      fun n => rfl
    have hlt : encodeWord .unorm8 v < 2 ^ 8 := UInt8.toNat_lt _
    rw [hdecode]
    exact word_unorm (encodeWord .unorm8) (by decide) (by decide) (Nat.le_refl _)
      (fun v => Binary32.toUInt8_saturates _) (by omega)
  | snorm8 =>
    exact congrArg (Bytes.ofSigned 8) (integer_snorm 8
      (fun v => Binary32.toInt8 (roundSnorm v snormMax8)) (by decide) (by decide)
      (fun v => Binary32.toIntSaturating_saturates (by decide) (by decide) _) v)
  | uint8 =>
    exact word_ofNat_word (encodeWord .uint8) (g := 2 ^ 8 - 1) (by decide)
      ⟨_, Int.le_refl _, Binary32.whole_ofInt (by decide)⟩
      (fun v => Binary32.toUInt8_saturates _) v
  | sint8 =>
    exact congrArg (Bytes.ofSigned 8) (integer_ofInt_integer 8
      (fun v => Binary32.toInt8 (Binary32.roundHalfAway v)) (by decide) (by decide)
      ⟨_, Int.le_refl _, Binary32.whole_ofInt (by decide)⟩
      ⟨_, Int.le_refl _, Binary32.whole_ofInt (by decide)⟩
      (fun v => Binary32.toIntSaturating_saturates (by decide) (by decide) _) v)
  | unorm16 =>
    have hdecode : ∀ n, decodeWord .unorm16 n = Binary32.ofNat n / Binary32.ofNat (2 ^ 16 - 1) :=
      fun n => rfl
    have hlt : encodeWord .unorm16 v < 2 ^ 16 := UInt16.toNat_lt _
    rw [hdecode]
    exact word_unorm (encodeWord .unorm16) (by decide) (by decide) (Nat.le_refl _)
      (fun v => Binary32.toUInt16_saturates _) (by omega)
  | snorm16 =>
    exact congrArg (Bytes.ofSigned 16) (integer_snorm 16
      (fun v => Binary32.toInt16 (roundSnorm v snormMax16)) (by decide) (by decide)
      (fun v => Binary32.toIntSaturating_saturates (by decide) (by decide) _) v)
  | uint16 =>
    exact word_ofNat_word (encodeWord .uint16) (g := 2 ^ 16 - 1) (by decide)
      ⟨_, Int.le_refl _, Binary32.whole_ofInt (by decide)⟩
      (fun v => Binary32.toUInt16_saturates _) v
  | sint16 =>
    exact congrArg (Bytes.ofSigned 16) (integer_ofInt_integer 16
      (fun v => Binary32.toInt16 (Binary32.roundHalfAway v)) (by decide) (by decide)
      ⟨_, Int.le_refl _, Binary32.whole_ofInt (by decide)⟩
      ⟨_, Int.le_refl _, Binary32.whole_ofInt (by decide)⟩
      (fun v => Binary32.toIntSaturating_saturates (by decide) (by decide) _) v)
  -- the greatest integers of 32 bits are no numbers of the format, and are rounded up
  | uint32 =>
    exact word_ofNat_word (encodeWord .uint32) (g := 2 ^ 32 - 1) (by decide)
      ⟨2 ^ 32, by decide, rfl, rfl⟩
      (fun v => Binary32.toUInt32_saturates _) v
  | sint32 =>
    exact congrArg (Bytes.ofSigned 32) (integer_ofInt_integer 32
      (fun v => Binary32.toInt32 (Binary32.roundHalfAway v)) (by decide) (by decide)
      ⟨-2 ^ 31, by decide, rfl, rfl⟩
      ⟨2 ^ 31, by decide, rfl, rfl⟩
      (fun v => Binary32.toIntSaturating_saturates (by decide) (by decide) _) v)

/-- The word of a component fits its bytes. -/
theorem encodeWord_lt (c : Component) (v : Binary32) : c.encodeWord v < 256 ^ c.size := by
  have hsigned : ∀ (bits : Nat) (i : Int), Bytes.ofSigned bits i < 2 ^ bits := by
    intro bits i
    have hpos : (0 : Int) < (2 ^ bits : Nat) := Int.natCast_pos.mpr (Nat.two_pow_pos bits)
    have hlt := Int.emod_lt_of_pos i hpos
    have hnonneg := Int.emod_nonneg i (Int.ne_of_gt hpos)
    unfold Bytes.ofSigned
    omega
  cases c with
  | unorm8 | uint8 => exact UInt8.toNat_lt _
  | snorm8 | sint8 => exact hsigned 8 _
  | unorm16 | uint16 | sfloat16 => exact UInt16.toNat_lt _
  | snorm16 | sint16 => exact hsigned 16 _
  | uint32 | sfloat32 => exact UInt32.toNat_lt _
  | sint32 => exact hsigned 32 _

/-- The bytes of a component write its word. -/
theorem wordOf_encode (c : Component) (v : Binary32) :
    Bytes.wordOf (c.encode v) = c.encodeWord v := by
  unfold encode
  rw [Bytes.wordOf_wordBytes, Nat.mod_eq_of_lt (c.encodeWord_lt v)]

end Component

namespace Format

open Component (word_unorm)

variable {f : Format} {bytes : Bytes} {color : Color}

/-- A code of a bit field is written as itself. -/
theorem encodeField_decodeField {field : BitField} {n : Nat} (hpos : 0 < field.width)
    (hwidth : field.width ≤ 16) (hn : n < 2 ^ field.width) :
    encodeField field (Binary32.ofNat n / Binary32.ofNat (fieldMax field)) = n := by
  have hpow : 2 ^ 1 ≤ 2 ^ field.width := Nat.pow_le_pow_right (by decide) hpos
  have hpow' : 2 ^ field.width ≤ 2 ^ 16 := Nat.pow_le_pow_right (by decide) hwidth
  have hmax : fieldMax field = 2 ^ field.width - 1 := rfl
  have hword := word_unorm (fun v =>
      (Component.roundUnorm v (Binary32.ofNat (fieldMax field))).toUInt16.toNat)
    (by omega) (by omega) (by omega) (fun v => Binary32.toUInt16_saturates _)
    (by omega : n ≤ fieldMax field)
  unfold encodeField
  rw [hword, Nat.mod_eq_of_lt hn]

/-- **A channel that was read is written with the code that it was read from**, if a value
was written as that code before. -/
theorem channelCode_channelOf {g : BitField} {i : Fin 4} (hfield : f.field? (.channel i) = some g)
    (v : Binary32) :
    f.channelCode i (f.channelOf i (some (f.channelCode i v))) = f.channelCode i v := by
  unfold channelCode channelOf
  cases hlayout : f.layout with
  | plain component channels bgr =>
    dsimp only
    rw [Component.wordOf_encode, Component.wordOf_encode,
      Component.encodeWord_decodeWord_encodeWord]
  | packed fields =>
    have hwidth : (fields.get i).width ≠ 0 := by
      unfold field? at hfield
      rw [hlayout] at hfield
      exact (Option.ite_none_left_eq_some.mp hfield).1
    have hle := packed_field_le hlayout hwidth
    exact encodeField_decodeField (Nat.pos_of_ne_zero hwidth) (by omega) (encodeField_lt _ _)
  | _ => rfl

/-- A channel of a colour that is written as a whole. -/
theorem code?_encode_all {texel : Bytes} {g : BitField} {i : Fin 4}
    (hencode : f.encode color .all bytes = .ok texel) (hfield : f.field? (.channel i) = some g) :
    f.code? (.channel i) texel = some (f.channelCode i (color.get i)) := by
  rw [code?_encode hencode]
  unfold code?
  rw [hfield, Option.map_some, Option.map_some, codeAfter_of_selected (channels_all i)]

/-- **Stored colours are stable**: what is read from a texel to which a colour was written is
written as the same bytes. -/
theorem encode_readback (hrenderable : f.isColorRenderable = true)
    (hlong : f.stride ≤ bytes.length) (color : Color) :
    ∃ texel stored, f.encode color .all bytes = .ok texel ∧ f.decode? texel = some stored ∧
      f.encode stored .all texel = .ok texel := by
  obtain ⟨texel, hencode, hlength, -⟩ := encode_frame hrenderable hlong color .all
  have hlong' : f.stride ≤ texel.length := hlength ▸ hlong
  obtain ⟨stored, hstored, -⟩ := Option.map_eq_some_iff.mp (get_decode? hrenderable hlong' 0)
  obtain ⟨again, hagain, hlength', hdrop⟩ := encode_frame hrenderable hlong' stored .all
  have hsame : again = texel := by
    refine eq_of_codes_of_drop (isCompressed_of_isColorRenderable hrenderable) hlength' hlong'
      hdrop fun p => ?_
    cases hfield : f.field? p with
    | none =>
      unfold code?
      rw [hfield]
      rfl
    | some g =>
      obtain ⟨i, rfl⟩ := exists_channel hrenderable hfield
      have hcode := code?_encode_all hencode hfield
      have hread := get_decode? hrenderable hlong' i
      rw [hstored, Option.map_some, hcode] at hread
      rw [code?_encode_all hagain hfield, hcode, Option.some.inj hread,
        channelCode_channelOf hfield]
  exact ⟨texel, stored, hencode, hstored, hsame ▸ hagain⟩

/-- A colour out of every range, over a texel with another behind it. -/
theorem encode_readback_wild :
    let color := Color.mk Binary32.invalid ⟨0x7f800000⟩ (-Binary32.half) ⟨0x3eaaaaab⟩
    let bytes : Bytes := [1, 2, 3, 4, 5, 6, 7, 8, 9]
    isColorRenderable .rgba16Unorm = true ∧ stride .rgba16Unorm ≤ bytes.length ∧
      ∃ texel stored, encode .rgba16Unorm color .all bytes = .ok texel ∧
        decode? .rgba16Unorm texel = some stored ∧
        encode .rgba16Unorm stored .all texel = .ok texel :=
  ⟨by decide, by decide, encode_readback (by decide) (by decide) _⟩

end Format

end PixelPipeline
