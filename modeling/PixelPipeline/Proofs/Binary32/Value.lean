import PixelPipeline.Proofs.Binary32.Clamp

/-!
# Numbers as multiples of the least one

Every finite number is a multiple of `2 ^ (-149)`, and counted in this unit it is an
integer, its `value`; infinities count as the powers of two that overflow.  What was
read from bits is in canonical form, so the order of numbers is the order of their
values (`compare_eq`), and truncation is a division (`toNat_toUInt32`).
-/

namespace PixelPipeline.Binary32

open Float.Model (UnpackedFloat Format totalExponent)
open Float.Model.UnpackedFloat

variable {u v : UnpackedFloat} {m m' n : Nat} {e e' : Int} {s : Sign} {x y : Binary32}

/-! ## Values -/

/-- One, in units of the least positive number. -/
def unitCount : Nat := 2 ^ 149

/-- The least power of two that is too large for a number, in the same units. -/
def overflowCount : Nat := 2 ^ 128 * unitCount

/-- A finite magnitude in units of the least positive number. -/
def units (m : Nat) (e : Int) : Nat := m * 2 ^ (e + 149).toNat

/-- A number in units of the least positive one. -/
def valueOf : UnpackedFloat → Int
  | .notANumber => 0
  | .infinity s => s.apply overflowCount
  | .zero _ => 0
  | .finite s m e _ => s.apply (units m e)

/-- An infinity counts as the power of two that overflows. -/
theorem valueOf_infinity (s : Sign) : valueOf (.infinity s) = s.apply overflowCount := rfl

/-- A zero has value zero. -/
theorem valueOf_zero (s : Sign) : valueOf (.zero s) = 0 := rfl

/-- A finite number is its units under its sign. -/
theorem valueOf_finite (s : Sign) {hm : 0 < m} : valueOf (.finite s m e hm) = s.apply (units m e) :=
  rfl

/-- The value that the bits mean. -/
def value (x : Binary32) : Int := valueOf x.unpacked

/-- The form of numbers that are read from bits: the mantissa has as many digits as the
exponent allows. -/
def Canonical : UnpackedFloat → Prop
  | .notANumber => False
  | .infinity _ => True
  | .zero _ => True
  | .finite _ m e _ => m < 2 ^ 24 ∧ -149 ≤ e ∧ e ≤ 104 ∧ (2 ^ 23 ≤ m ∨ e = -149)

/-- What fields mean, apart from the sign. -/
theorem number_cases (e : BitVec 8) (m : BitVec 23) :
    (e = 255#8 ∧ m ≠ 0#23 ∧ ∀ s, number s e m = .notANumber) ∨
      (e = 255#8 ∧ m = 0#23 ∧ ∀ s, number s e m = .infinity s) ∨
      (e ≠ 255#8 ∧ ∀ s, number s e m = .zero s) ∨
      (e ≠ 255#8 ∧ ∃ m' e' hm, ∀ s, number s e m = .finite s m' e' hm) := by
  unfold number
  by_cases hmax : e = 255#8
  · by_cases hm : m = 0#23
    · exact .inr (.inl ⟨hmax, hm, fun s => by rw [if_pos hmax, if_pos hm]⟩)
    · exact .inl ⟨hmax, hm, fun s => by rw [if_pos hmax, if_neg hm]⟩
  refine .inr (.inr ?_)
  by_cases hzero : e = 0#8
  · by_cases hm : m = 0#23
    · exact .inl ⟨hmax, fun s => by rw [if_neg hmax, if_pos hzero, dif_pos hm]⟩
    · exact .inr ⟨hmax, _, _, _, fun s => by rw [if_neg hmax, if_pos hzero, dif_neg hm]⟩
  · exact .inr ⟨hmax, _, _, _, fun s => by rw [if_neg hmax, if_neg hzero]⟩

/-- What is read from bits is NaN or in canonical form. -/
theorem canonical_unpackBits (b : BitVec 32) (hnumber : unpackBits b ≠ .notANumber) :
    Canonical (unpackBits b) := by
  have hfraction := (fractionField b).isLt
  have hexponent := (exponentField b).isLt
  rw [unpackBits_eq] at hnumber ⊢
  unfold number at hnumber ⊢
  by_cases hmax : exponentField b = 255#8
  · rw [if_pos hmax] at hnumber ⊢
    by_cases hf : fractionField b = 0#23
    · rw [if_pos hf]
      trivial
    · rw [if_neg hf] at hnumber
      exact (hnumber rfl).elim
  rw [if_neg hmax]
  by_cases hzero : exponentField b = 0#8
  · rw [if_pos hzero]
    by_cases hf : fractionField b = 0#23
    · rw [dif_pos hf]
      trivial
    · rw [dif_neg hf]
      exact ⟨by omega, by omega, by omega, .inr rfl⟩
  · rw [if_neg hzero]
    have hpos : (exponentField b).toNat ≠ 0 := fun h => hzero (BitVec.eq_of_toNat_eq h)
    have hne : (exponentField b).toNat ≠ 255 := fun h => hmax (BitVec.eq_of_toNat_eq h)
    exact ⟨by omega, by omega, by omega, .inl (by omega)⟩

/-- What is read from bits is in canonical form, unless it is NaN. -/
theorem canonical_unpacked (hnumber : x.unpacked ≠ .notANumber) : Canonical x.unpacked :=
  canonical_unpackBits _ hnumber

/-- Zero is not NaN. -/
theorem isNaN_zero : zero.isNaN = false := rfl

/-- The value of zero. -/
theorem value_zero : zero.value = 0 := rfl

/-- One is not NaN. -/
theorem isNaN_one : one.isNaN = false := rfl

/-- The value of one. -/
theorem value_one : one.value = unitCount := rfl

/-! ## Order -/

/-- Magnitudes in canonical form compare by exponent and then by mantissa. -/
theorem compare_units (hm : m < 2 ^ 24) (he : -149 ≤ e) (hm' : m' < 2 ^ 24) (he' : -149 ≤ e')
    (hfull : 2 ^ 23 ≤ m ∨ e = -149) (hfull' : 2 ^ 23 ≤ m' ∨ e' = -149) :
    (compare e e').then (compare m m') = compare (units m e) (units m' e') := by
  -- a larger exponent has a full mantissa
  have hlarger : ∀ {m m' : Nat} {e e' : Int}, m < 2 ^ 24 → -149 ≤ e →
      (2 ^ 23 ≤ m' ∨ e' = -149) → e < e' → units m e < units m' e' := by
    intro m m' e e' hm he hfull' hlt
    have hm' : 2 ^ 23 ≤ m' := hfull'.resolve_right (by omega)
    obtain ⟨k, hk⟩ : ∃ k, (e' + 149).toNat = (e + 149).toNat + 1 + k :=
      ⟨(e' + 149).toNat - ((e + 149).toNat + 1), by omega⟩
    unfold units
    rw [hk, Nat.pow_add, Nat.pow_succ']
    have hpos := Nat.two_pow_pos (e + 149).toNat
    have hone : 1 ≤ 2 ^ k := Nat.two_pow_pos k
    calc m * 2 ^ (e + 149).toNat < 2 ^ 24 * 2 ^ (e + 149).toNat :=
          Nat.mul_lt_mul_of_pos_right hm hpos
      _ = 2 ^ 23 * (2 * 2 ^ (e + 149).toNat) * 1 := by omega
      _ ≤ m' * (2 * 2 ^ (e + 149).toNat) * 2 ^ k :=
          Nat.mul_le_mul (Nat.mul_le_mul_right _ hm') hone
      _ = m' * (2 * 2 ^ (e + 149).toNat * 2 ^ k) := Nat.mul_assoc ..
  rcases Int.lt_trichotomy e e' with hlt | rfl | hgt
  · rw [Int.compare_eq_lt.mpr hlt, Nat.compare_eq_lt.mpr (hlarger hm he hfull' hlt)]
    rfl
  · have hpos := Nat.two_pow_pos (e + 149).toNat
    rw [Int.compare_eq_eq.mpr rfl]
    change compare m m' = _
    unfold units
    rcases Nat.lt_trichotomy m m' with hlt | rfl | hgt
    · rw [Nat.compare_eq_lt.mpr hlt,
        Nat.compare_eq_lt.mpr (Nat.mul_lt_mul_of_pos_right hlt hpos)]
    · rw [Nat.compare_eq_eq.mpr rfl, Nat.compare_eq_eq.mpr rfl]
    · rw [Nat.compare_eq_gt.mpr hgt,
        Nat.compare_eq_gt.mpr (Nat.mul_lt_mul_of_pos_right hgt hpos)]
  · rw [Int.compare_eq_gt.mpr hgt, Nat.compare_eq_gt.mpr (hlarger hm' he' hfull hgt)]
    rfl

/-- A positive mantissa has a positive number of units. -/
theorem units_pos (hm : 0 < m) : 0 < units m e := Nat.mul_pos hm (Nat.two_pow_pos _)

/-- Aligning a mantissa to a smaller exponent keeps the magnitude. -/
theorem units_shiftLeft (hle : e' ≤ e) (he : -149 ≤ e') :
    units (m <<< (e - e').toNat) e' = units m e := by
  have hpow : (e + 149).toNat = (e - e').toNat + (e' + 149).toNat := by omega
  unfold units
  rw [Nat.shiftLeft_eq, hpow, Nat.pow_add, Nat.mul_assoc]

/-- Mantissas with one exponent add up in units. -/
theorem units_add (m m' : Nat) (e : Int) : units (m + m') e = units m e + units m' e :=
  Nat.add_mul ..

/-- Finite numbers are less than infinity. -/
theorem units_lt (hm : m < 2 ^ 24) (he : e ≤ 104) : units m e < overflowCount := by
  have hpow : 2 ^ (e + 149).toNat ≤ 2 ^ 253 := Nat.pow_le_pow_right (by decide) (by omega)
  calc units m e < 2 ^ 24 * 2 ^ (e + 149).toNat :=
        Nat.mul_lt_mul_of_pos_right hm (Nat.two_pow_pos _)
    _ ≤ 2 ^ 24 * 2 ^ 253 := Nat.mul_le_mul_left _ hpow
    _ = overflowCount := rfl

/-- A signed magnitude is at most the magnitude. -/
theorem apply_le (s : Sign) (k : Nat) : s.apply k ≤ k := by
  cases s with
  | negative =>
    simp only [Sign.apply]
    omega
  | positive => exact Int.le_refl _

/-- Nothing exceeds infinity. -/
theorem value_le (x : Binary32) : x.value ≤ overflowCount := by
  unfold value
  by_cases hnumber : x.unpacked = .notANumber
  · rw [hnumber]
    exact Int.natCast_nonneg _
  have hcanonical := canonical_unpacked hnumber
  generalize x.unpacked = u at hcanonical ⊢
  cases u with
  | notANumber => exact hcanonical.elim
  | infinity s => exact apply_le s _
  | zero s => exact Int.natCast_nonneg _
  | finite s m e hm =>
    have hlt := units_lt hcanonical.1 hcanonical.2.2.1
    exact Int.le_trans (apply_le s _) (Int.ofNat_le.mpr (Nat.le_of_lt hlt))

/-- Numbers with signs compare by sign, and then by magnitude, the other way round if
both are negative. -/
theorem compare_apply {a b : Nat} (ha : 0 < a) (hb : 0 < b) (s s' : Sign) :
    compare (s.apply a) (s'.apply b) =
      match s, s' with
      | .negative, .negative => (compare a b).swap
      | .negative, .positive => .lt
      | .positive, .negative => .gt
      | .positive, .positive => compare a b := by
  cases s with
  | negative =>
    cases s' with
    | negative =>
      simp only [Sign.apply]
      rcases Nat.lt_trichotomy a b with hlt | rfl | hgt
      · rw [Nat.compare_eq_lt.mpr hlt, Int.compare_eq_gt.mpr (by omega)]
        rfl
      · rw [Nat.compare_eq_eq.mpr rfl, Int.compare_eq_eq.mpr rfl]
        rfl
      · rw [Nat.compare_eq_gt.mpr hgt, Int.compare_eq_lt.mpr (by omega)]
        rfl
    | positive =>
      simp only [Sign.apply]
      exact Int.compare_eq_lt.mpr (by omega)
  | positive =>
    cases s' with
    | negative =>
      simp only [Sign.apply]
      exact Int.compare_eq_gt.mpr (by omega)
    | positive =>
      simp only [Sign.apply]
      rcases Nat.lt_trichotomy a b with hlt | rfl | hgt
      · rw [Nat.compare_eq_lt.mpr hlt, Int.compare_eq_lt.mpr (by omega)]
      · rw [Nat.compare_eq_eq.mpr rfl, Int.compare_eq_eq.mpr rfl]
      · rw [Nat.compare_eq_gt.mpr hgt, Int.compare_eq_gt.mpr (by omega)]

/-- A signed magnitude compares with zero as its sign says. -/
theorem compare_apply_zero {a : Nat} (ha : 0 < a) (s : Sign) :
    compare (s.apply a) 0 = match s with | .negative => .lt | .positive => .gt := by
  cases s with
  | negative => exact Int.compare_eq_lt.mpr (by simp only [Sign.apply]; omega)
  | positive => exact Int.compare_eq_gt.mpr (by simp only [Sign.apply]; omega)

/-- Zero compares with a signed magnitude against its sign. -/
theorem compare_zero_apply {a : Nat} (ha : 0 < a) (s : Sign) :
    compare 0 (s.apply a) = match s with | .negative => .gt | .positive => .lt := by
  cases s with
  | negative => exact Int.compare_eq_gt.mpr (by simp only [Sign.apply]; omega)
  | positive => exact Int.compare_eq_lt.mpr (by simp only [Sign.apply]; omega)

/-- **The order of numbers is the order of their values.** -/
theorem compare_eq (hu : Canonical u) (hv : Canonical v) :
    u.compare v = some (compare (valueOf u) (valueOf v)) := by
  have hoverflow : 0 < overflowCount := by decide
  cases u with
  | notANumber => exact hu.elim
  | infinity s =>
    cases v with
    | notANumber => exact hv.elim
    | infinity s' =>
      rw [valueOf_infinity, valueOf_infinity, compare_apply hoverflow hoverflow,
        Nat.compare_eq_eq.mpr rfl]
      cases s <;> cases s' <;> rfl
    | zero s' =>
      rw [valueOf_infinity, valueOf_zero, compare_apply_zero hoverflow]
      cases s <;> rfl
    | finite s' m' e' hm' =>
      rw [valueOf_infinity, valueOf_finite, compare_apply hoverflow (units_pos hm'),
        Nat.compare_eq_gt.mpr (units_lt hv.1 hv.2.2.1)]
      cases s <;> cases s' <;> rfl
  | zero s =>
    cases v with
    | notANumber => exact hv.elim
    | infinity s' =>
      rw [valueOf_zero, valueOf_infinity, compare_zero_apply hoverflow]
      cases s' <;> rfl
    | zero s' => rfl
    | finite s' m' e' hm' =>
      rw [valueOf_zero, valueOf_finite, compare_zero_apply (units_pos hm')]
      cases s' <;> rfl
  | finite s m e hm =>
    cases v with
    | notANumber => exact hv.elim
    | infinity s' =>
      rw [valueOf_finite, valueOf_infinity, compare_apply (units_pos hm) hoverflow,
        Nat.compare_eq_lt.mpr (units_lt hu.1 hu.2.2.1)]
      cases s <;> cases s' <;> rfl
    | zero s' =>
      rw [valueOf_finite, valueOf_zero, compare_apply_zero (units_pos hm)]
      cases s <;> rfl
    | finite s' m' e' hm' =>
      rw [valueOf_finite, valueOf_finite, compare_apply (units_pos hm) (units_pos hm'),
        ← compare_units hu.1 hu.2.1 hv.1 hv.2.1 hu.2.2.2 hv.2.2.2]
      cases s <;> cases s' <;> rfl

/-! ## Comparisons -/

/-- A number is NaN if it is unpacked as NaN. -/
theorem isNaN_iff : x.isNaN = true ↔ x.unpacked = .notANumber := by
  refine ⟨unpacked_of_isNaN, fun hunpack => ?_⟩
  have hexponent := toNat_exponentField x.bits.toBitVec
  have hfraction := toNat_fractionField x.bits.toBitVec
  rw [UInt32.toNat_toBitVec] at hexponent hfraction
  unfold unpacked at hunpack
  rw [unpackBits_eq] at hunpack
  obtain ⟨hmax, hsome, -⟩ | ⟨-, -, hinfinite⟩ | ⟨-, hzero⟩ | ⟨-, m', e', hm, hfinite⟩ :=
    number_cases (exponentField x.bits.toBitVec) (fractionField x.bits.toBitVec)
  · have hpos : (fractionField x.bits.toBitVec).toNat ≠ 0 := fun h =>
      hsome (BitVec.eq_of_toNat_eq h)
    have hfield : (exponentField x.bits.toBitVec).toNat = 255 := congrArg BitVec.toNat hmax
    refine decide_eq_true (UInt32.lt_iff_toNat_lt.mpr ?_)
    rw [toNat_magnitudeBits]
    change 0x7f800000 < _
    omega
  · rw [hinfinite] at hunpack
    cases hunpack
  · rw [hzero] at hunpack
    cases hunpack
  · rw [hfinite] at hunpack
    cases hunpack

/-- Every number but NaN is in canonical form. -/
theorem canonical_of_isNaN (hnumber : x.isNaN = false) : Canonical x.unpacked :=
  canonical_unpackBits _ fun hunpack => by
    rw [isNaN_iff.mpr hunpack] at hnumber
    cases hnumber

/-- Numbers are ordered as their values are. -/
theorem lt_iff (hx : x.isNaN = false) (hy : y.isNaN = false) :
    lt x y = true ↔ x.value < y.value := by
  rw [lt_eq]
  unfold UnpackedFloat.lt
  rw [compare_eq (canonical_of_isNaN hx) (canonical_of_isNaN hy), beq_iff_eq, Option.some_inj]
  exact Int.compare_eq_lt

/-- Numbers are ordered as their values are, with equality. -/
theorem le_iff (hx : x.isNaN = false) (hy : y.isNaN = false) :
    le x y = true ↔ x.value ≤ y.value := by
  rw [le_eq]
  unfold UnpackedFloat.le
  rw [compare_eq (canonical_of_isNaN hx) (canonical_of_isNaN hy), Option.any_some]
  exact Int.isLE_compare

/-- Numbers are equal if their values are. -/
theorem eq_iff (hx : x.isNaN = false) (hy : y.isNaN = false) :
    eq x y = true ↔ x.value = y.value := by
  rw [eq_eq]
  unfold UnpackedFloat.beq
  rw [compare_eq (canonical_of_isNaN hx) (canonical_of_isNaN hy), beq_iff_eq, Option.some_inj]
  exact Int.compare_eq_eq

/-- What is compared with success is a number. -/
theorem isNaN_of_le (hle : le x y = true) : x.isNaN = false ∧ y.isNaN = false := by
  rw [le_eq] at hle
  constructor
  · refine Bool.eq_false_iff.mpr fun hnan => ?_
    rw [unpacked_of_isNaN hnan] at hle
    cases hle
  · refine Bool.eq_false_iff.mpr fun hnan => ?_
    rw [unpacked_of_isNaN hnan] at hle
    cases hx : x.unpacked <;> rw [hx] at hle <;> cases hle

/-- NaN is not less than anything, and nothing is less than it. -/
theorem lt_of_isNaN (hnan : x.isNaN = true ∨ y.isNaN = true) : lt x y = false := by
  rw [lt_eq]
  rcases hnan with hnan | hnan
  · rw [unpacked_of_isNaN hnan]
    rfl
  · rw [unpacked_of_isNaN hnan]
    cases x.unpacked <;> rfl

/-- Clamping a number takes the nearest value of the interval. -/
theorem value_clamp {lo hi : Binary32} (hlo : lo.isNaN = false) (hhi : hi.isNaN = false)
    (hx : x.isNaN = false) :
    (clamp lo hi x).isNaN = false ∧
      (clamp lo hi x).value = min hi.value (max lo.value x.value) := by
  -- the larger of the number and the lower bound
  obtain ⟨raised, hraised, hnumber, hvalue⟩ : ∃ raised, (if lt x lo then lo else x) = raised ∧
      raised.isNaN = false ∧ raised.value = max lo.value x.value := by
    by_cases hlow : lt x lo = true
    · have hlt := (lt_iff hx hlo).mp hlow
      exact ⟨lo, if_pos hlow, hlo, by omega⟩
    · have hle : ¬ x.value < lo.value := fun hlt => hlow ((lt_iff hx hlo).mpr hlt)
      exact ⟨x, if_neg hlow, hx, by omega⟩
  unfold clamp
  simp only
  rw [hraised]
  by_cases hhigh : lt hi raised = true
  · have hlt := (lt_iff hhi hnumber).mp hhigh
    rw [if_pos hhigh]
    exact ⟨hhi, by omega⟩
  · have hle : ¬ hi.value < raised.value := fun hlt => hhigh ((lt_iff hhi hnumber).mpr hlt)
    rw [if_neg hhigh]
    exact ⟨hnumber, by omega⟩

/-- Clamping keeps NaN. -/
theorem clamp_of_isNaN {lo hi : Binary32} (hnan : x.isNaN = true) : clamp lo hi x = x := by
  have hlow : ¬ lt x lo = true := Bool.eq_false_iff.mp (lt_of_isNaN (.inl hnan))
  have hhigh : ¬ lt hi x = true := Bool.eq_false_iff.mp (lt_of_isNaN (.inr hnan))
  unfold clamp
  simp only
  rw [if_neg hlow, if_neg hhigh]

/-! ## Signs -/

/-- A negated sign negates the value. -/
theorem apply_neg (s : Sign) (k : Int) : (-s).apply k = -s.apply k := by
  cases s with
  | negative => exact (Int.neg_neg k).symm
  | positive => rfl

/-- Negating an unpacked number negates its value. -/
theorem valueOf_neg (u : UnpackedFloat) : valueOf u.neg = -valueOf u := by
  cases u with
  | notANumber => rfl
  | infinity s => exact apply_neg s _
  | zero s => rfl
  | finite s m e hm => exact apply_neg s _

/-- A negated sign field negates the number. -/
theorem number_neg (s : Sign) (e : BitVec 8) (m : BitVec 23) :
    number (-s) e m = (number s e m).neg := by
  obtain ⟨-, -, hnan⟩ | ⟨-, -, hinfinite⟩ | ⟨-, hzero⟩ | ⟨-, m', e', hm, hfinite⟩ :=
    number_cases e m
  · rw [hnan, hnan]
    rfl
  · rw [hinfinite, hinfinite]
    rfl
  · rw [hzero, hzero]
    rfl
  · rw [hfinite, hfinite]
    rfl

/-- The sign field is the highest bit. -/
theorem signField_eq (b : BitVec 32) : signField b = .ofBitVec (b.extractLsb 31 31) := rfl

/-- Flipping the highest bit negates the sign field. -/
theorem signField_neg (b : BitVec 32) : signField (b ^^^ 0x80000000#32) = -signField b := by
  have hflip : ∀ v : BitVec 1, Sign.ofBitVec (v ^^^ 1#1) = -Sign.ofBitVec v := by
    intro v
    rcases BitVec.eq_zero_or_eq_one v with rfl | rfl
    · rfl
    · rfl
  have hlast : (0x80000000#32).extractLsb 31 31 = 1#1 := rfl
  rw [signField_eq, signField_eq, BitVec.extractLsb_xor, hlast]
  exact hflip _

/-- Negation negates the unpacked number. -/
theorem unpacked_neg (x : Binary32) : (-x).unpacked = x.unpacked.neg := by
  have hbits : (-x).bits.toBitVec = x.bits.toBitVec ^^^ 0x80000000#32 := rfl
  have hexponent : exponentField (x.bits.toBitVec ^^^ 0x80000000#32)
      = exponentField x.bits.toBitVec := by
    change (x.bits.toBitVec ^^^ 0x80000000#32).extractLsb 30 23 = x.bits.toBitVec.extractLsb 30 23
    rw [BitVec.extractLsb_xor]
    exact BitVec.xor_zero
  have hfraction : fractionField (x.bits.toBitVec ^^^ 0x80000000#32)
      = fractionField x.bits.toBitVec := by
    change (x.bits.toBitVec ^^^ 0x80000000#32).extractLsb 22 0 = x.bits.toBitVec.extractLsb 22 0
    rw [BitVec.extractLsb_xor]
    exact BitVec.xor_zero
  unfold unpacked
  rw [hbits, unpackBits_eq, unpackBits_eq, hexponent, hfraction, signField_neg, number_neg]

/-- Negation negates the value. -/
theorem value_neg (x : Binary32) : (-x).value = -x.value := by
  unfold value
  rw [unpacked_neg, valueOf_neg]

/-- Without the highest bit the sign is positive. -/
theorem signField_of_lt {b : BitVec 32} (hlt : b.toNat < 2 ^ 31) : signField b = .positive := by
  have hzero : b.extractLsb 31 31 = 0#1 := by
    apply BitVec.eq_of_toNat_eq
    rw [BitVec.extractLsb_toNat, Nat.shiftRight_eq_div_pow, Nat.div_eq_of_lt hlt]
    rfl
  rw [signField_eq, hzero]
  rfl

/-- With the highest bit the sign is negative. -/
theorem signField_of_le {b : BitVec 32} (hle : 2 ^ 31 ≤ b.toNat) : signField b = .negative := by
  have hone : b.extractLsb 31 31 = 1#1 := by
    have hlt := b.isLt
    apply BitVec.eq_of_toNat_eq
    rw [BitVec.extractLsb_toNat, Nat.shiftRight_eq_div_pow]
    change _ = 1
    omega
  rw [signField_eq, hone]
  rfl

/-- The sign bit is the sign field. -/
theorem signField_of_signBit (x : Binary32) :
    signField x.bits.toBitVec = if x.signBit then .negative else .positive := by
  have hbit : x.signBit = true ↔ 2 ^ 31 ≤ x.bits.toBitVec.toNat := by
    have hlt := x.bits.toBitVec.isLt
    have hshift : (x.bits >>> 31).toNat = x.bits.toBitVec.toNat / 2 ^ 31 := by
      rw [UInt32.toNat_shiftRight, Nat.shiftRight_eq_div_pow]
      rfl
    unfold signBit
    rw [bne_iff_ne, ne_eq, ← UInt32.toNat_inj, hshift]
    change ¬ _ = 0 ↔ _
    omega
  by_cases hsign : x.signBit = true
  · rw [if_pos hsign, signField_of_le (hbit.mp hsign)]
  · rw [if_neg hsign, signField_of_lt (Nat.lt_of_not_le fun hle => hsign (hbit.mpr hle))]

/-- What the fields say of a magnitude does not depend on the sign. -/
theorem valueOf_number (e : BitVec 8) (m : BitVec 23) :
    0 ≤ valueOf (number .positive e m) ∧
      ∀ s, valueOf (number s e m) = s.apply (valueOf (number .positive e m)) := by
  have happly : ∀ (s : Sign) (k : Nat),
      s.apply (k : Int) = s.apply (Sign.positive.apply (k : Int)) := fun s k => rfl
  obtain ⟨-, -, hnan⟩ | ⟨-, -, hinfinite⟩ | ⟨-, hzero⟩ | ⟨-, m', e', hm, hfinite⟩ :=
    number_cases e m
  · rw [hnan]
    exact ⟨Int.le_refl _, fun s => by rw [hnan]; cases s <;> rfl⟩
  · rw [hinfinite]
    exact ⟨Int.natCast_nonneg _, fun s => by rw [hinfinite]; exact happly s _⟩
  · rw [hzero]
    exact ⟨Int.le_refl _, fun s => by rw [hzero]; cases s <;> rfl⟩
  · rw [hfinite]
    exact ⟨Int.natCast_nonneg _, fun s => by rw [hfinite]; exact happly s _⟩

/-- The absolute value has a positive sign and the other fields as they are. -/
theorem unpacked_abs (x : Binary32) : x.abs.unpacked
    = number .positive (exponentField x.bits.toBitVec) (fractionField x.bits.toBitVec) := by
  have hmagnitude : x.abs.bits.toBitVec.toNat = x.bits.toBitVec.toNat % 2 ^ 31 :=
    x.toNat_magnitudeBits
  have hexponent : exponentField x.abs.bits.toBitVec = exponentField x.bits.toBitVec := by
    apply BitVec.eq_of_toNat_eq
    rw [toNat_exponentField, toNat_exponentField, hmagnitude]
    omega
  have hfraction : fractionField x.abs.bits.toBitVec = fractionField x.bits.toBitVec := by
    apply BitVec.eq_of_toNat_eq
    rw [toNat_fractionField, toNat_fractionField, hmagnitude]
    omega
  have hsign : signField x.abs.bits.toBitVec = .positive := by
    refine signField_of_lt ?_
    rw [hmagnitude]
    exact Nat.mod_lt _ (by decide)
  unfold unpacked
  rw [unpackBits_eq, hsign, hexponent, hfraction]

/-- A value is that of the magnitude, with the sign. -/
theorem value_eq (x : Binary32) :
    x.value = if x.signBit then -x.abs.value else x.abs.value := by
  unfold value
  rw [unpacked_abs]
  unfold unpacked
  rw [unpackBits_eq, (valueOf_number _ _).2, signField_of_signBit]
  cases x.signBit <;> rfl

/-- An absolute value is not negative. -/
theorem value_abs_nonneg (x : Binary32) : 0 ≤ x.abs.value := by
  unfold value
  rw [unpacked_abs]
  exact (valueOf_number _ _).1

/-- The absolute value is NaN exactly if the number is. -/
theorem isNaN_abs (x : Binary32) : x.abs.isNaN = x.isNaN := by
  have hsame : x.abs.magnitudeBits = x.magnitudeBits := by
    unfold abs magnitudeBits
    rw [UInt32.and_assoc]
    rfl
  unfold isNaN
  rw [hsame]

/-- The negation is NaN exactly if the number is. -/
theorem isNaN_neg (x : Binary32) : (-x).isNaN = x.isNaN := by
  rw [Bool.eq_iff_iff, isNaN_iff, isNaN_iff, unpacked_neg]
  cases x.unpacked with
  | notANumber => exact Iff.rfl
  | infinity s => exact ⟨UnpackedFloat.noConfusion, UnpackedFloat.noConfusion⟩
  | zero s => exact ⟨UnpackedFloat.noConfusion, UnpackedFloat.noConfusion⟩
  | finite s m e hm => exact ⟨UnpackedFloat.noConfusion, UnpackedFloat.noConfusion⟩

/-! ## Packing -/

/-- The sign of a number; NaN counts as positive. -/
def signOf : UnpackedFloat → Sign
  | .notANumber => .positive
  | .infinity s | .zero s | .finite s _ _ _ => s

/-- The sign of a finite number is its sign. -/
theorem signOf_finite (s : Sign) {hm : 0 < m} : signOf (.finite s m e hm) = s := rfl

/-- Fields are no NaN unless the exponent is full and the fraction is not zero. -/
theorem number_ne_notANumber {e : BitVec 8} {m : BitVec 23} (hnumber : e ≠ 255#8 ∨ m = 0#23) :
    number s e m ≠ .notANumber := by
  obtain ⟨hmax, hm, -⟩ | ⟨-, -, hinfinite⟩ | ⟨-, hzero⟩ | ⟨-, m', e', hm, hfinite⟩ :=
    number_cases e m
  · exact (hm (hnumber.resolve_left (· hmax))).elim
  · rw [hinfinite]
    exact UnpackedFloat.noConfusion
  · rw [hzero]
    exact UnpackedFloat.noConfusion
  · rw [hfinite]
    exact UnpackedFloat.noConfusion

/-- Packing a number, even one that is not in canonical form, gives the bits of a number
of the same sign. -/
theorem unpack_pack_number (hnumber : u ≠ .notANumber) : ∃ e m, (e ≠ 255#8 ∨ m = 0#23) ∧
    unpackBits (packBits u) = number (signOf u) e m := by
  cases u with
  | notANumber => exact (hnumber rfl).elim
  | infinity s => exact ⟨255#8, 0#23, .inr rfl, unpackBits_packComponents ..⟩
  | zero s => exact ⟨0#8, 0#23, .inr rfl, unpackBits_packComponents ..⟩
  | finite s m e hm =>
    rw [signOf_finite]
    unfold packBits pack
    dsimp only
    by_cases hlarge : 2 ^ Format.binary32.exponentBits ≤ (e + Format.binary32.exponentBias
        + Format.binary32.mantissaBitsWithoutImplicit).toNat + 1
    · rw [if_pos hlarge]
      exact ⟨255#8, 0#23, .inr rfl, unpackBits_packComponents ..⟩
    rw [if_neg hlarge]
    split
    · refine ⟨_, _, .inl fun hmax => hlarge ?_, unpackBits_packComponents ..⟩
      have hfield := congrArg BitVec.toNat hmax
      rw [BitVec.toNat_ofNat] at hfield
      exact Nat.succ_le_succ (Nat.le_trans (Nat.le_of_eq hfield.symm) (Nat.mod_le _ _))
    · exact ⟨0#8, _, .inl (by decide), unpackBits_packComponents ..⟩

/-- What is packed is NaN only if it was. -/
theorem isNaN_of_pack (hpack : x.unpacked = unpackBits (packBits u))
    (hnumber : u ≠ .notANumber) : x.isNaN = false := by
  obtain ⟨e, m, hfields, hunpack⟩ := unpack_pack_number hnumber
  refine Bool.eq_false_iff.mpr fun hnan => number_ne_notANumber hfields (hunpack.symm.trans ?_)
  rw [← hpack, unpacked_of_isNaN hnan]

/-- A packed number with a positive sign is not negative. -/
theorem value_nonneg_of_pack (hpack : x.unpacked = unpackBits (packBits u))
    (hnumber : u ≠ .notANumber) (hsign : signOf u = .positive) : 0 ≤ x.value := by
  obtain ⟨e, m, -, hunpack⟩ := unpack_pack_number hnumber
  unfold value
  rw [hpack, hunpack, hsign]
  exact (valueOf_number e m).1

/-! ## Truncation -/

/-- Clamping into a word stops at the greatest word. -/
theorem toNat_ofNatClamp (k : Nat) : (UInt32.ofNatClamp k).toNat = min k (2 ^ 32 - 1) := by
  have hsize : UInt32.size = 2 ^ 32 := rfl
  unfold UInt32.ofNatClamp
  split
  · rename_i hlt
    change k = _
    omega
  · rename_i hlarge
    change 2 ^ 32 - 1 = _
    omega

/-- Cutting off the digits behind the point. -/
theorem units_div (he : -149 ≤ e) :
    units m e / unitCount = m * 2 ^ e.toNat / 2 ^ (-e).toNat := by
  unfold units unitCount
  by_cases hneg : e < 0
  · have hsplit : 149 = (-e).toNat + (e + 149).toNat := by omega
    have hnone : e.toNat = 0 := by omega
    rw [hnone, Nat.pow_zero, Nat.mul_one]
    generalize (-e).toNat = k at hsplit ⊢
    generalize (e + 149).toNat = j at hsplit ⊢
    rw [hsplit, Nat.pow_add]
    exact Nat.mul_div_mul_right m (2 ^ k) (Nat.two_pow_pos j)
  · have hsplit : (e + 149).toNat = e.toNat + 149 := by omega
    have hnone : (-e).toNat = 0 := by omega
    rw [hsplit, hnone, Nat.pow_zero, Nat.div_one, Nat.pow_add, ← Nat.mul_assoc]
    exact Nat.mul_div_cancel _ (Nat.two_pow_pos 149)

/-- What is negative is divided to zero, and what is not is divided. -/
theorem toNat_apply_div (s : Sign) (a : Nat) :
    (s.apply a / (unitCount : Int)).toNat = (s.apply (a / unitCount : Nat)).toNat := by
  have hunit : (0 : Int) < unitCount := by decide
  cases s with
  | negative =>
    have hneg : -(a : Int) / unitCount ≤ 0 := Int.ediv_nonpos_of_nonpos_of_neg (by omega) (by omega)
    have hnonneg : (0 : Int) ≤ (a / unitCount : Nat) := Int.natCast_nonneg _
    simp only [Sign.apply]
    rw [Int.toNat_of_nonpos hneg, Int.toNat_of_nonpos (by omega)]
  | positive => rfl

/-- **Truncation divides by the value of one**, as far as words go. -/
theorem toNat_toUInt32 (hnumber : x.isNaN = false) :
    x.toUInt32.toNat = min (x.value / unitCount).toNat (2 ^ 32 - 1) := by
  have hcanonical := canonical_of_isNaN hnumber
  rw [toUInt32_eq]
  unfold value UnpackedFloat.toUInt32
  rw [toNat_ofNatClamp]
  cases hunpack : x.unpacked with
  | notANumber =>
    rw [hunpack] at hcanonical
    exact hcanonical.elim
  | infinity s =>
    rw [valueOf_infinity, toNat_apply_div]
    cases s with
    | negative => decide
    | positive => decide
  | zero s => rfl
  | finite s m e hm =>
    rw [hunpack] at hcanonical
    rw [valueOf_finite, toNat_apply_div, units_div hcanonical.2.1, toInt_finite]

end PixelPipeline.Binary32
