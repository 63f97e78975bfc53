import PixelPipeline.Proofs.Binary32.Within

/-!
# Terms that cancel

Two numbers are equal when their values are (`Equals`); they may still differ in the sign
of a zero.  Equal numbers that are not zero have the same bits (`Equals.eq_of_value_ne`),
so whatever is computed from one is computed from the other.

A finite number less an equal one is zero (`Equals.sub`), and so is any sum of opposite
values (`equals_zero_of_sum`).  Zero times a finite number is zero (`equals_mul_zero`), and
zero added or taken away changes nothing (`Equals.add_zero`, `Equals.sub_zero`), not even a
bit unless the number is the negative zero (`add_zero_eq`).  The sign of a factor is that
of the product, whatever is rounded (`value_mul_neg`).
-/

namespace PixelPipeline.Binary32

open Float.Model (UnpackedFloat Format)
open Float.Model.UnpackedFloat

variable {u v : UnpackedFloat} {m n : Nat} {e : Int} {s s' : Sign} {x y z k : Binary32}

/-! ## Equality of numbers -/

/-- Both are numbers, and they have the same value. -/
structure Equals (x y : Binary32) : Prop where
  left : x.isNaN = false
  right : y.isNaN = false
  value : x.value = y.value

/-- What compares as equal is equal, and what is equal compares so. -/
theorem equals_iff : Equals x y ↔ eq x y = true := by
  constructor
  · intro hequals
    exact (eq_iff hequals.left hequals.right).mpr hequals.value
  · intro heq
    have hnumber : x.isNaN = false ∧ y.isNaN = false := by
      rw [eq_eq] at heq
      refine ⟨Bool.eq_false_iff.mpr fun hnan => ?_, Bool.eq_false_iff.mpr fun hnan => ?_⟩
      · rw [unpacked_of_isNaN hnan] at heq
        cases heq
      · rw [unpacked_of_isNaN hnan] at heq
        cases hx : x.unpacked <;> rw [hx] at heq <;> cases heq
    exact ⟨hnumber.1, hnumber.2, (eq_iff hnumber.1 hnumber.2).mp heq⟩

theorem Equals.refl (hnumber : x.isNaN = false) : Equals x x := ⟨hnumber, hnumber, rfl⟩

/-- Equality of numbers is symmetric. -/
theorem Equals.symm (hequals : Equals x y) : Equals y x :=
  ⟨hequals.right, hequals.left, hequals.value.symm⟩

theorem Equals.trans (hfirst : Equals x y) (hrest : Equals y z) : Equals x z :=
  ⟨hfirst.left, hrest.right, hfirst.value.trans hrest.value⟩

/-- What is unpacked to the same number is equal. -/
theorem Equals.of_unpacked (hunpack : x.unpacked = y.unpacked) (hnumber : y.isNaN = false) :
    Equals x y := by
  refine ⟨Bool.eq_false_iff.mpr fun hnan => ?_, hnumber, congrArg valueOf hunpack⟩
  rw [isNaN_iff, hunpack, ← isNaN_iff, hnumber] at hnan
  cases hnan

/-- Finite numbers are those below the overflow. -/
theorem isFinite_iff : x.isFinite = true ↔ x.isNaN = false ∧ x.value.natAbs < overflowCount := by
  constructor
  · intro hfinite
    obtain ⟨hnumber, hvalue⟩ := value_of_isFinite hfinite
    exact ⟨hnumber, by omega⟩
  · rintro ⟨hnumber, hvalue⟩
    refine Decidable.byContradiction fun hlarge => ?_
    have habs : x.abs.value = overflowCount :=
      congrArg Binary32.value (abs_of_not_isFinite hnumber hlarge)
    rw [value_eq, habs] at hvalue
    split at hvalue
    · omega
    · omega

/-- What equals a finite number is finite. -/
theorem Equals.isFinite (hequals : Equals x y) (hfinite : y.isFinite = true) :
    x.isFinite = true := by
  rw [isFinite_iff] at hfinite ⊢
  rw [hequals.value]
  exact ⟨hequals.left, hfinite.2⟩

/-- The negation of a finite number is finite. -/
theorem isFinite_neg (hfinite : x.isFinite = true) : (-x).isFinite = true := by
  rw [isFinite_iff] at hfinite ⊢
  rw [isNaN_neg, value_neg, Int.natAbs_neg]
  exact hfinite

/-- A bound on the magnitude is one on the value. -/
theorem Within.natAbs_value {bound : Nat} (hx : Within bound x) :
    x.value.natAbs ≤ bound * unitCount := by
  have hcanonical := canonical_of_isNaN hx.number
  have hmost := hx.most
  unfold value
  generalize x.unpacked = u at hcanonical hmost ⊢
  cases u with
  | notANumber => exact hcanonical.elim
  | infinity s => exact hmost.elim
  | zero s => exact Nat.zero_le _
  | finite s m e hm =>
    rw [valueOf_finite, natAbs_apply]
    exact (fits_units hcanonical.2.1).mp hmost

/-- Numbers of bounded magnitude are finite. -/
theorem Within.isFinite {bound : Nat} (hx : Within bound x) (hbound : bound < 2 ^ 24) :
    x.isFinite = true := by
  have hlt : bound * unitCount < overflowCount :=
    Nat.mul_lt_mul_of_pos_right (Nat.lt_trans hbound (by decide)) (by decide)
  exact isFinite_iff.mpr ⟨hx.number, Nat.lt_of_le_of_lt hx.natAbs_value hlt⟩

/-! ## Bits of equal numbers -/

/-- A number is made of its fields. -/
theorem packComponents_fields (b : BitVec 32) :
    packComponents Format.binary32 (signField b) (exponentField b) (fractionField b) = b := by
  have hsign : (signField b).toBitVec = b.extractLsb 31 31 := by
    rw [signField_eq]
    generalize b.extractLsb 31 31 = v
    rcases BitVec.eq_zero_or_eq_one v with rfl | rfl
    · rfl
    · rfl
  have hfields : packComponents Format.binary32 (signField b) (exponentField b) (fractionField b)
      = b.extractLsb 31 31 ++ b.extractLsb 30 23 ++ b.extractLsb 22 0 := by
    unfold packComponents
    rw [hsign]
    rfl
  rw [hfields]
  apply BitVec.eq_of_getLsbD_eq
  intro i hi
  simp only [BitVec.getLsbD_append, BitVec.getLsbD_extractLsb]
  grind

/-- Packing the number that was read gives its bits back. -/
theorem packBits_unpacked (hnumber : x.isNaN = false) : packBits x.unpacked = x.bits.toBitVec := by
  have hfields : exponentField x.bits.toBitVec ≠ 255#8 ∨ fractionField x.bits.toBitVec = 0#23 := by
    refine Decidable.or_iff_not_imp_left.mpr fun hmax => Decidable.byContradiction fun hsome => ?_
    refine unpacked_ne_notANumber hnumber ?_
    unfold unpacked
    rw [unpackBits_eq]
    unfold number
    rw [if_pos (Decidable.not_not.mp hmax), if_neg hsome]
  unfold unpacked
  rw [unpackBits_eq, packBits_number _ _ _ hfields, packComponents_fields]

/-- Numbers are told apart by what their bits mean. -/
theorem unpacked_inj (hx : x.isNaN = false) (hy : y.isNaN = false)
    (hunpack : x.unpacked = y.unpacked) : x = y := by
  have hbits : x.bits.toBitVec = y.bits.toBitVec := by
    rw [← packBits_unpacked hx, ← packBits_unpacked hy, hunpack]
  exact congrArg Binary32.mk (UInt32.toBitVec_inj.mp hbits)

/-- A signed magnitude that is not zero has one sign and one magnitude. -/
theorem apply_inj (hm : 0 < m) (heq : s.apply (m : Int) = s'.apply (n : Int)) : s = s' ∧ m = n := by
  have hmagnitude : m = n := by
    have habs := congrArg Int.natAbs heq
    rwa [natAbs_apply, natAbs_apply] at habs
  subst hmagnitude
  refine ⟨?_, rfl⟩
  cases s <;> cases s' <;> simp only [Sign.apply] at heq ⊢ <;> omega

/-- Numbers in canonical form that have the same value are the same, or both zero. -/
theorem eq_of_valueOf (hu : Canonical u) (hv : Canonical v) (hvalue : valueOf u = valueOf v)
    (hne : valueOf u ≠ 0) : u = v := by
  have hoverflow : 0 < overflowCount := by decide
  cases u with
  | notANumber => exact hu.elim
  | zero s => exact (hne rfl).elim
  | infinity s =>
    rw [valueOf_infinity] at hvalue
    cases v with
    | notANumber => exact hv.elim
    | zero s' =>
      have habs := congrArg Int.natAbs hvalue
      rw [natAbs_apply] at habs
      exact (Nat.ne_of_gt hoverflow habs).elim
    | infinity s' => rw [(apply_inj hoverflow hvalue).1]
    | finite s' m' e' hm' =>
      have hlarge := (apply_inj hoverflow hvalue).2
      exact (Nat.ne_of_gt (units_lt hv.1 hv.2.2.1) hlarge).elim
  | finite s m e hm =>
    rw [valueOf_finite] at hvalue hne
    cases v with
    | notANumber => exact hv.elim
    | zero s' => exact (hne hvalue).elim
    | infinity s' =>
      have hlarge := (apply_inj (units_pos hm) hvalue).2
      exact (Nat.ne_of_lt (units_lt hu.1 hu.2.2.1) hlarge).elim
    | finite s' m' e' hm' =>
      obtain ⟨rfl, hunits⟩ := apply_inj (units_pos hm) hvalue
      have hcompare := compare_units hu.1 hu.2.1 hv.1 hv.2.1 hu.2.2.2 hv.2.2.2
      rw [Nat.compare_eq_eq.mpr hunits, Ordering.then_eq_eq] at hcompare
      exact finite_congr (Nat.compare_eq_eq.mp hcompare.2) (Int.compare_eq_eq.mp hcompare.1)

/-- Equal numbers that are not zero are the same. -/
theorem Equals.unpacked_eq (hequals : Equals x y) (hne : x.value ≠ 0) : x.unpacked = y.unpacked :=
  eq_of_valueOf (canonical_of_isNaN hequals.left) (canonical_of_isNaN hequals.right)
    hequals.value hne

/-- **Equal numbers have the same bits, unless they are zeros.** -/
theorem Equals.eq_of_value_ne (hequals : Equals x y) (hne : x.value ≠ 0) : x = y :=
  unpacked_inj hequals.left hequals.right (hequals.unpacked_eq hne)

/-! ## Zeros -/

/-- The zeros are the two with a sign. -/
theorem equals_zero_iff : Equals z zero ↔ ∃ s, z.unpacked = .zero s := by
  constructor
  · intro hzero
    have hcanonical := canonical_of_isNaN hzero.left
    have hvalue : z.value = 0 := hzero.value
    unfold Binary32.value at hvalue
    generalize z.unpacked = u at hcanonical hvalue ⊢
    cases u with
    | notANumber => exact hcanonical.elim
    | infinity s =>
      have habs := congrArg Int.natAbs hvalue
      rw [valueOf_infinity, natAbs_apply] at habs
      exact absurd habs (by decide)
    | zero s => exact ⟨s, rfl⟩
    | finite s m e hm =>
      have habs := congrArg Int.natAbs hvalue
      rw [valueOf_finite, natAbs_apply] at habs
      exact (Nat.ne_of_gt (units_pos hm) habs).elim
  · rintro ⟨s, hunpack⟩
    have hvalue : valueOf z.unpacked = 0 := hunpack ▸ valueOf_zero s
    refine ⟨Bool.eq_false_iff.mpr fun hnan => ?_, rfl, hvalue⟩
    rw [unpacked_of_isNaN hnan] at hunpack
    cases hunpack

/-- A packed zero equals zero, whatever its sign. -/
theorem equals_zero_of_pack (hpack : x.unpacked = unpackBits (packBits (.zero s))) :
    Equals x zero :=
  equals_zero_iff.mpr ⟨s, hpack.trans (by cases s <;> rfl)⟩

/-- Adding a zero changes nothing but the negative zero. -/
theorem unpacked_add_zero (hz : Equals z zero) (hx : x.unpacked ≠ .zero .negative) :
    (x + z).unpacked = x.unpacked := by
  obtain ⟨s, hunpack⟩ := equals_zero_iff.mp hz
  have hsum : UnpackedFloat.add Format.binary32 x.unpacked (.zero s) = x.unpacked := by
    generalize x.unpacked = u at hx ⊢
    cases u with
    | zero s' =>
      cases s' with
      | negative => exact (hx rfl).elim
      | positive => cases s <;> rfl
    | _ => rfl
  rw [unpacked_add, hunpack, hsum]
  exact unpack_pack_unpack _

/-- Adding a zero of either sign changes no value. -/
theorem Equals.add_zero (hequals : Equals x y) (hz : Equals z zero) : Equals (x + z) y := by
  refine Equals.trans ?_ hequals
  by_cases hnegative : x.unpacked = .zero .negative
  · obtain ⟨s, hunpack⟩ := equals_zero_iff.mp hz
    have hsum : ∃ s', UnpackedFloat.add Format.binary32 (.zero .negative) (.zero s) = .zero s' := by
      cases s
      · exact ⟨_, rfl⟩
      · exact ⟨_, rfl⟩
    obtain ⟨s', hsum⟩ := hsum
    have hadd := unpacked_add x z
    rw [hnegative, hunpack, hsum] at hadd
    exact (equals_zero_of_pack hadd).trans (equals_zero_iff.mpr ⟨_, hnegative⟩).symm
  · exact .of_unpacked (unpacked_add_zero hz hnegative) hequals.left

/-- **Adding a zero keeps the bits**, unless they are those of the negative zero. -/
theorem add_zero_eq (hx : x.isNaN = false) (hz : Equals z zero) (hne : x ≠ -zero) : x + z = x := by
  have hnegative : x.unpacked ≠ .zero .negative := fun hunpack =>
    hne (unpacked_inj hx rfl hunpack)
  exact unpacked_inj ((Equals.refl hx).add_zero hz).left hx (unpacked_add_zero hz hnegative)

/-- The negation of a zero is a zero. -/
theorem equals_neg_zero (hz : Equals z zero) : Equals (-z) zero := by
  refine ⟨z.isNaN_neg.trans hz.left, rfl, ?_⟩
  rw [value_neg, hz.value]
  rfl

/-- Subtracting a zero of either sign changes no value. -/
theorem Equals.sub_zero (hequals : Equals x y) (hz : Equals z zero) : Equals (x - z) y := by
  have hadd := hequals.add_zero (equals_neg_zero hz)
  exact (Equals.of_unpacked (unpacked_sub x z) hadd.left).trans hadd

/-- A zero times a finite number is a zero. -/
theorem equals_mul_zero (hz : Equals z zero) (hk : k.isFinite = true) : Equals (z * k) zero := by
  obtain ⟨s, hunpack⟩ := equals_zero_iff.mp hz
  obtain ⟨hnumber, hvalue⟩ := isFinite_iff.mp hk
  have hproduct : ∃ s', UnpackedFloat.mul Format.binary32 (.zero s) k.unpacked = .zero s' := by
    have hnan := unpacked_ne_notANumber hnumber
    have hinfinite := ne_infinity_of_value hvalue
    generalize k.unpacked = u at hnan hinfinite
    cases u with
    | notANumber => exact (hnan rfl).elim
    | infinity s' => exact (hinfinite s' rfl).elim
    | zero s' => exact ⟨_, rfl⟩
    | finite s' m e hm => exact ⟨_, rfl⟩
  obtain ⟨s', hproduct⟩ := hproduct
  have hmul := unpacked_mul z k
  rw [hunpack, hproduct] at hmul
  exact equals_zero_of_pack hmul

/-- Multiplication is commutative. -/
theorem mul_comm (u v : UnpackedFloat) :
    UnpackedFloat.mul Format.binary32 u v = UnpackedFloat.mul Format.binary32 v u := by
  have hsign : ∀ s s' : Sign, s * s' = s' * s := by
    intro s s'
    cases s <;> cases s' <;> rfl
  cases u with
  | notANumber => cases v <;> rfl
  | infinity s =>
    cases v with
    | notANumber => rfl
    | zero s' => rfl
    | _ => exact congrArg UnpackedFloat.infinity (hsign ..)
  | zero s =>
    cases v with
    | notANumber => rfl
    | infinity s' => rfl
    | _ => exact congrArg UnpackedFloat.zero (hsign ..)
  | finite s m e hm =>
    cases v with
    | notANumber => rfl
    | infinity s' => exact congrArg UnpackedFloat.infinity (hsign ..)
    | zero s' => exact congrArg UnpackedFloat.zero (hsign ..)
    | finite s' m' e' hm' =>
      change roundWithAccuracy _ (s * s') (m * m') (e + e') .exact
        = roundWithAccuracy _ (s' * s) (m' * m) (e' + e) .exact
      rw [hsign, Nat.mul_comm, Int.add_comm]

/-- So is a finite number times a zero. -/
theorem equals_zero_mul (hz : Equals z zero) (hk : k.isFinite = true) : Equals (k * z) zero := by
  have hmul := equals_mul_zero hz hk
  have hcomm : (k * z).unpacked = (z * k).unpacked := by
    rw [unpacked_mul, unpacked_mul, mul_comm]
  exact (Equals.of_unpacked hcomm hmul.left).trans hmul

/-! ## Opposite values -/

/-- **Opposite values add up to zero.** -/
theorem equals_zero_of_sum (hx : x.isFinite = true) (hy : y.isFinite = true)
    (hsum : x.value + y.value = 0) : Equals (x + y) zero := by
  rw [isFinite_iff] at hx hy
  have hnone : (valueOf x.unpacked + valueOf y.unpacked).natAbs ≤ 0 * unitCount := by
    rw [Nat.zero_mul]
    exact Nat.le_of_eq (Int.natAbs_eq_zero.mpr hsum)
  obtain ⟨hnumber, hmost⟩ := atMost_add_of_valueOf (by decide) (canonical_of_isNaN hx.1)
    (canonical_of_isNaN hy.1) (ne_infinity_of_value hx.2) (ne_infinity_of_value hy.2) hnone
  have hzero : ∃ s, UnpackedFloat.add Format.binary32 x.unpacked y.unpacked = .zero s := by
    generalize UnpackedFloat.add Format.binary32 x.unpacked y.unpacked = u at hnumber hmost
    cases u with
    | notANumber => exact (hnumber rfl).elim
    | infinity s => exact hmost.elim
    | zero s => exact ⟨s, rfl⟩
    | finite s m e hm =>
      -- a mantissa that is not zero is more than nothing
      have hpos : 0 < m * 2 ^ e.toNat := Nat.mul_pos hm (Nat.two_pow_pos _)
      have hle : m * 2 ^ e.toNat ≤ 0 * 2 ^ (-e).toNat := hmost
      omega
  obtain ⟨s, hzero⟩ := hzero
  exact equals_zero_of_pack (hzero ▸ unpacked_add x y)

/-- **A number less an equal one is zero.** -/
theorem Equals.sub (hequals : Equals x y) (hfinite : y.isFinite = true) : Equals (x - y) zero := by
  have hopposite : x.value + (-y).value = 0 := by
    rw [value_neg, hequals.value]
    omega
  have hadd := equals_zero_of_sum (hequals.isFinite hfinite) (isFinite_neg hfinite) hopposite
  exact (Equals.of_unpacked (unpacked_sub x y) hadd.left).trans hadd

/-! ## Products -/

/-- What is packed has the sign of the number, and otherwise does not depend on it. -/
theorem valueOf_pack_neg (u : UnpackedFloat) :
    valueOf (unpackBits (packBits u.neg)) = -valueOf (unpackBits (packBits u)) := by
  have hcomponents : ∀ (s : Sign) (e : BitVec 8) (m : BitVec 23),
      valueOf (unpackBits (packComponents Format.binary32 (-s) e m))
        = -valueOf (unpackBits (packComponents Format.binary32 s e m)) := by
    intro s e m
    rw [unpackBits_packComponents, unpackBits_packComponents, number_neg, valueOf_neg]
  cases u with
  | notANumber => rfl
  | infinity s => exact hcomponents s _ _
  | zero s => exact hcomponents s _ _
  | finite s m e hm =>
    unfold UnpackedFloat.neg packBits pack
    dsimp only
    split
    · exact hcomponents s _ _
    · split
      · exact hcomponents s _ _
      · exact hcomponents s _ _

/-- Rounding commutes with negation. -/
theorem roundWithAccuracy_neg (s : Sign) (m : Nat) (e : Int) (a : Accuracy) :
    roundWithAccuracy Format.binary32 (-s) m e a
      = (roundWithAccuracy Format.binary32 s m e a).neg := by
  have hcases : ∀ (m : Nat) (e : Int),
      (if hm : m = 0 then UnpackedFloat.zero (-s) else .finite (-s) m e (Nat.pos_of_ne_zero hm))
        = (if hm : m = 0 then UnpackedFloat.zero s
          else .finite s m e (Nat.pos_of_ne_zero hm)).neg := by
    intro m e
    by_cases hm : m = 0
    · rw [dif_pos hm, dif_pos hm]
      rfl
    · rw [dif_neg hm, dif_neg hm]
      rfl
  exact hcases _ _

/-- A negated factor negates the product. -/
theorem mul_neg (u v : UnpackedFloat) : UnpackedFloat.mul Format.binary32 u v.neg
    = (UnpackedFloat.mul Format.binary32 u v).neg := by
  have hsign : ∀ s s' : Sign, s * -s' = -(s * s') := by
    intro s s'
    cases s <;> cases s' <;> rfl
  cases u with
  | notANumber => rfl
  | infinity s =>
    cases v with
    | notANumber => rfl
    | infinity s' => exact congrArg UnpackedFloat.infinity (hsign s s')
    | zero s' => rfl
    | finite s' m' e' hm' => exact congrArg UnpackedFloat.infinity (hsign s s')
  | zero s =>
    cases v with
    | notANumber => rfl
    | infinity s' => rfl
    | zero s' => exact congrArg UnpackedFloat.zero (hsign s s')
    | finite s' m' e' hm' => exact congrArg UnpackedFloat.zero (hsign s s')
  | finite s m e hm =>
    cases v with
    | notANumber => rfl
    | infinity s' => exact congrArg UnpackedFloat.infinity (hsign s s')
    | zero s' => exact congrArg UnpackedFloat.zero (hsign s s')
    | finite s' m' e' hm' =>
      change roundWithAccuracy Format.binary32 (s * -s') (m * m') (e + e') .exact = _
      rw [hsign]
      exact roundWithAccuracy_neg (s * s') (m * m') (e + e') .exact

/-- **The sign of a factor is that of the product.** -/
theorem value_mul_neg (x y : Binary32) : (x * -y).value = -(x * y).value := by
  unfold value
  rw [unpacked_mul, unpacked_neg, mul_neg, valueOf_pack_neg, unpacked_mul]

/-- Equal numbers have equal multiples. -/
theorem Equals.mul (hequals : Equals x y) (hk : k.isFinite = true)
    (hproduct : (y * k).isNaN = false) : Equals (x * k) (y * k) := by
  by_cases hzero : x.value = 0
  · have hx : Equals x zero := ⟨hequals.left, rfl, hzero⟩
    have hy : Equals y zero := hequals.symm.trans hx
    exact (equals_mul_zero hx hk).trans (equals_mul_zero hy hk).symm
  · have hsame : x = y := hequals.eq_of_value_ne hzero
    exact hsame ▸ .refl (hsame ▸ hproduct)

/-- Multiples of small numbers are finite, and equal if the numbers are. -/
theorem Equals.scale (hequals : Equals x y) (hy : Within 1 y) (hk : Within n k) (hpos : 0 < n)
    (hlt : n < 2 ^ 24) : Equals (x * k) (y * k) ∧ (y * k).isFinite = true := by
  have hproduct : Within (1 * n) (y * k) := hy.mul hk (by omega) (by omega)
  exact ⟨hequals.mul (hk.isFinite hlt) hproduct.number, hproduct.isFinite (by omega)⟩

end PixelPipeline.Binary32
