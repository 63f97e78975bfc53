import PixelPipeline.Proofs.Binary32.Exact
import PixelPipeline.Proofs.Binary32.Rounding

/-!
# Rounding keeps to the order

A rounded sum lies on the same side of each number of the format as the exact sum: what the
exact sum reaches the rounded one reaches (`le_value_add`), and what it stays below the rounded
one stays below (`value_add_le`).

Cutting digits off a mantissa does not step over an integral multiple of what is cut off
(`Truncates.order`).  A number of the format is such a multiple, or it lies below every full
mantissa with the exponent of the result (`Cut.order`).
-/

namespace PixelPipeline.Binary32

open Float.Model (UnpackedFloat Format totalExponent)
open Float.Model.UnpackedFloat

variable {m n r cut : Nat} {e e' start : Int} {s : Sign} {x y z : Binary32}

/-! ## Mantissas -/

/-- Rounding a truncated mantissa does not step over an integer. -/
theorem Truncates.order {em : ExtendedMantissa} (htruncates : Truncates m cut em) (k : Nat) :
    (k * 2 ^ cut ≤ m → k ≤ em.roundedMantissa) ∧ (m ≤ k * 2 ^ cut → em.roundedMantissa ≤ k) := by
  constructor
  · intro hle
    have hquotient : k ≤ m / 2 ^ cut := (Nat.le_div_iff_mul_le (Nat.two_pow_pos cut)).mpr hle
    rw [← htruncates.mantissa] at hquotient
    refine Nat.le_trans hquotient ?_
    unfold ExtendedMantissa.roundedMantissa Accuracy.roundToNearestEven
    split <;> omega
  · intro hle
    have hlt : em.roundedMantissa * 2 ^ cut < (k + 1) * 2 ^ cut := by
      rw [Nat.succ_mul]
      exact Nat.lt_of_lt_of_le htruncates.roundedMantissa_lt (Nat.add_le_add_right hle _)
    exact Nat.lt_succ_iff.mp (Nat.lt_of_mul_lt_mul_right hlt)

/-- A mantissa that is `cut` digits too long for the format, or one that is short because the
exponent cannot be smaller. -/
structure Cut (m : Nat) (start : Int) (cut : Nat) : Prop where
  low : -149 ≤ start
  target : Format.binary32.targetExponent (totalExponent m start) = start + cut
  full : 2 ^ 23 * 2 ^ cut ≤ m ∨ cut = 0 ∧ start = -149
  fits : m < 2 ^ 24 * 2 ^ cut

/-- Rounding starts by writing a number with a mantissa that is long enough. -/
theorem exists_cut (hm : 0 < m) (he : -149 ≤ e) (s : Sign) : ∃ (m' : Nat) (start : Int) (cut : Nat),
    UnpackedFloat.round Format.binary32 s m e
        = roundWithAccuracy Format.binary32 s m' start .exact ∧
      0 < m' ∧ units m' start = units m e ∧ Cut m' start cut := by
  obtain ⟨target, htarget⟩ : ∃ target, target = max ((m.log2 : Int) + 1 + e - 24) (-149) := ⟨_, rfl⟩
  obtain ⟨k, hk⟩ : ∃ k : Nat, k = (e - target).toNat := ⟨_, rfl⟩
  have hpos : 0 < m * 2 ^ k := Nat.mul_pos hm (Nat.two_pow_pos k)
  have hlog : (m * 2 ^ k).log2 = m.log2 + k := log2_mul_two_pow (Nat.ne_of_gt hm) k
  obtain ⟨cut, hcut⟩ : ∃ cut : Nat, cut = (target - (e - k)).toNat := ⟨_, rfl⟩
  refine ⟨m * 2 ^ k, e - k, cut, ?_, hpos, ?_, by omega, ?_, ?_, ?_⟩
  · have hround : Format.binary32.targetExponent (totalExponent m e) = target := htarget.symm
    unfold UnpackedFloat.round decreaseExponent
    simp only [hround, ← hk, Nat.shiftLeft_eq]
  · have hpow : (e + 149).toNat = k + (e - k + 149).toNat := by omega
    unfold units
    rw [hpow, Nat.pow_add, Nat.mul_assoc]
  · change max (((m * 2 ^ k).log2 : Int) + 1 + (e - k) - 24) (-149) = _
    omega
  · by_cases hshort : cut = 0 ∧ e - k = -149
    · exact .inr hshort
    · have hlength : cut + 23 = (m * 2 ^ k).log2 := by omega
      refine .inl ?_
      rw [← Nat.pow_add, Nat.add_comm, hlength]
      exact Nat.log2_self_le (Nat.ne_of_gt hpos)
  · rw [← Nat.pow_add]
    exact (Nat.log2_lt (Nat.ne_of_gt hpos)).mp (by omega)

/-- What rounding takes for a mantissa that is too long. -/
def Cut.rounded (m cut : Nat) : Nat :=
  (ExtendedMantissa.ofMantissaAndAccuracy m .exact >>> cut).roundedMantissa

namespace Cut

/-- A rounded mantissa is positive and has 24 digits, or it is subnormal. -/
theorem rounded_bounds (h : Cut m start cut) (hm : 0 < m) : 0 < rounded m cut ∧
    rounded m cut ≤ 2 ^ 24 ∧ (2 ^ 23 ≤ rounded m cut ∨ start + cut = -149) := by
  have horder := (truncates_shift m cut).order
  have hhigh : rounded m cut ≤ 2 ^ 24 := (horder _).2 (Nat.le_of_lt h.fits)
  obtain hfull | ⟨rfl, hstart⟩ := h.full
  · have hlow : 2 ^ 23 ≤ rounded m cut := (horder _).1 hfull
    exact ⟨Nat.lt_of_lt_of_le (by decide) hlow, hhigh, .inl hlow⟩
  · have hlow : m ≤ rounded m 0 := (horder m).1 (Nat.le_of_eq (Nat.mul_one m))
    exact ⟨Nat.lt_of_lt_of_le hm hlow, hhigh, .inr (by omega)⟩

/-- Rounding does not step over a number of the format. -/
theorem order (h : Cut m start cut) (hn : n < 2 ^ 24) (he' : -149 ≤ e') :
    (units n e' ≤ units m start → units n e' ≤ units (rounded m cut) (start + cut)) ∧
      (units m start ≤ units n e' → units (rounded m cut) (start + cut) ≤ units n e') := by
  have horder := (truncates_shift m cut).order
  have hpos : 0 < 2 ^ (start + 149).toNat := Nat.two_pow_pos _
  have hlow := h.low
  have hlast : ∀ k : Nat, units k (start + cut) = k * 2 ^ cut * 2 ^ (start + 149).toNat := by
    intro k
    have hpow : (start + cut + 149).toNat = cut + (start + 149).toNat := by omega
    unfold units
    rw [hpow, Nat.pow_add, Nat.mul_assoc]
  by_cases hcoarse : start + cut ≤ e'
  · -- a multiple of the last digit that is kept
    obtain ⟨d, rfl⟩ : ∃ d : Nat, e' = start + cut + d := ⟨(e' - (start + cut)).toNat, by omega⟩
    have hmultiple : units n (start + cut + d) = units (n * 2 ^ d) (start + cut) := by
      have hpow : (start + cut + d + 149).toNat = d + (start + cut + 149).toNat := by omega
      unfold units
      rw [hpow, Nat.pow_add, Nat.mul_assoc]
    rw [hmultiple, hlast, hlast]
    unfold units
    constructor
    · intro hle
      have hreached := (horder _).1 (Nat.le_of_mul_le_mul_right hle hpos)
      exact Nat.mul_le_mul_right _ (Nat.mul_le_mul_right _ hreached)
    · intro hle
      have hreached := (horder _).2 (Nat.le_of_mul_le_mul_right hle hpos)
      exact Nat.mul_le_mul_right _ (Nat.mul_le_mul_right _ hreached)
  · -- below every full mantissa
    have hfull := h.full.resolve_right (by omega)
    have hbelow : units n e' < units (2 ^ 23) (start + cut) := by
      obtain ⟨d, hd⟩ : ∃ d : Nat, (start + cut + 149).toNat = d + 1 + (e' + 149).toNat :=
        ⟨(start + cut - 1 - e').toNat, by omega⟩
      unfold units
      rw [hd, Nat.pow_add, ← Nat.mul_assoc]
      refine Nat.mul_lt_mul_of_pos_right (Nat.lt_of_lt_of_le hn ?_) (Nat.two_pow_pos _)
      rw [← Nat.pow_add]
      exact Nat.pow_le_pow_right (by decide) (by omega)
    have hexact : units (2 ^ 23) (start + cut) ≤ units m start := by
      rw [hlast]
      exact Nat.mul_le_mul_right _ hfull
    have hrounded : units (2 ^ 23) (start + cut) ≤ units (rounded m cut) (start + cut) :=
      Nat.mul_le_mul_right _ ((horder _).1 hfull)
    exact ⟨fun _ => by omega, fun _ => by omega⟩

/-- The rounded number, before the overflow is looked at. -/
theorem exists_finite (h : Cut m start cut) (hm : 0 < m) (s : Sign) : ∃ m' e', ∃ hm' : 0 < m',
    roundWithAccuracy Format.binary32 s m start .exact = .finite s m' e' hm' ∧
      units m' e' = units (rounded m cut) (start + cut) ∧ m' < 2 ^ 24 ∧ -149 ≤ e' ∧
      (2 ^ 23 ≤ m' ∨ e' = -149) := by
  obtain ⟨hpos, hhigh, hfull⟩ := h.rounded_bounds hm
  have hlow := h.low
  by_cases hcarry : rounded m cut = 2 ^ 24
  · refine ⟨_, _, _, roundWithAccuracy_carry cut h.target hcarry (by omega), ?_, by decide,
      by omega, .inl (Nat.le_refl _)⟩
    have hpow : (start + cut + 1 + 149).toNat = 1 + (start + cut + 149).toNat := by omega
    unfold units
    rw [hcarry, hpow, Nat.pow_add, ← Nat.mul_assoc]
    rfl
  · have hlt : rounded m cut < 2 ^ 24 := Nat.lt_of_le_of_ne hhigh hcarry
    have hfinal : Format.binary32.targetExponent (totalExponent (rounded m cut) (start + cut))
        = start + cut := by
      have hlog := (Nat.log2_lt (Nat.ne_of_gt hpos)).mpr hlt
      change max (((rounded m cut).log2 : Int) + 1 + (start + cut) - 24) (-149) = start + cut
      obtain hfull | hleast := hfull
      · have hlog' := (Nat.le_log2 (Nat.ne_of_gt hpos)).mpr hfull
        omega
      · omega
    exact ⟨_, _, hpos, roundWithAccuracy_eq cut hpos h.target rfl hfinal, rfl, hlt, by omega, hfull⟩

end Cut

/-! ## Numbers -/

/-- Packing a mantissa that fits turns what is too large into an infinity. -/
theorem valueOf_unpack_pack {hm : 0 < m} (hlt : m < 2 ^ 24) (he : -149 ≤ e)
    (hfull : 2 ^ 23 ≤ m ∨ e = -149) : valueOf (unpackBits (packBits (.finite s m e hm)))
      = s.apply (min (units m e) overflowCount : Nat) := by
  by_cases hlarge : e ≤ 104
  · have hbelow := units_lt hlt hlarge
    have hcanonical : Canonical (.finite s m e hm) := ⟨hlt, he, hlarge, hfull⟩
    rw [unpack_pack_canonical hcanonical, valueOf_finite, Nat.min_eq_left (Nat.le_of_lt hbelow)]
  · have hinfinite : unpackBits (packBits (.finite s m e hm)) = .infinity s := by
      have hfield : 2 ^ Format.binary32.exponentBits ≤ (e + Format.binary32.exponentBias
          + Format.binary32.mantissaBitsWithoutImplicit).toNat + 1 := by
        change 256 ≤ (e + 127 + 23).toNat + 1
        omega
      have hpack : packBits (.finite s m e hm) = packBits (.infinity s) := if_pos hfield
      rw [hpack]
      cases s <;> rfl
    have habove : overflowCount ≤ units m e := by
      have hpow : 2 ^ 254 ≤ 2 ^ (e + 149).toNat := Nat.pow_le_pow_right (by decide) (by omega)
      have hsplit : overflowCount = 2 ^ 23 * 2 ^ 254 := rfl
      rw [hsplit]
      exact Nat.mul_le_mul (hfull.resolve_right (by omega)) hpow
    rw [hinfinite, valueOf_infinity, Nat.min_eq_right habove]

/-- A rounded magnitude keeps to the order of the numbers below the overflow. -/
theorem exists_round (hm : 0 < m) (he : -149 ≤ e) (s : Sign) : ∃ k : Nat,
    valueOf (unpackBits (packBits (UnpackedFloat.round Format.binary32 s m e))) = s.apply k ∧
      ∀ n e', n < 2 ^ 24 → -149 ≤ e' → units n e' < overflowCount →
        (units n e' ≤ units m e → units n e' ≤ k) ∧ (units m e ≤ units n e' → k ≤ units n e') := by
  obtain ⟨m', start, cut, hround, hm', hunits, hcut⟩ := exists_cut hm he s
  obtain ⟨r, e'', hr, hfinite, hvalue, hlt, hlow, hfull⟩ := hcut.exists_finite hm' s
  refine ⟨min (units r e'') overflowCount, ?_, fun n e' hn he' hbelow => ?_⟩
  · rw [hround, hfinite]
    exact valueOf_unpack_pack hlt hlow hfull
  · obtain ⟨hreach, hstay⟩ := hcut.order hn he'
    rw [hunits, ← hvalue] at hreach hstay
    exact ⟨fun hle => Nat.le_min.mpr ⟨hreach hle, Nat.le_of_lt hbelow⟩,
      fun hle => Nat.le_trans (Nat.min_le_left _ _) (hstay hle)⟩

/-! ## Sums -/

/-- The value of a finite number is a signed mantissa that fits. -/
theorem exists_mantissa (hx : x.isFinite = true) : ∃ (s : Sign) (n : Nat) (e : Int),
    n < 2 ^ 24 ∧ -149 ≤ e ∧ units n e < overflowCount ∧ x.value = s.apply (units n e : Nat) := by
  obtain ⟨hnumber, hbelow⟩ := isFinite_iff.mp hx
  have hcanonical := canonical_of_isNaN hnumber
  have hinfinite := ne_infinity_of_value hbelow
  unfold value at hbelow ⊢
  generalize x.unpacked = u at hcanonical hinfinite hbelow ⊢
  cases u with
  | notANumber => exact hcanonical.elim
  | infinity s => exact (hinfinite s rfl).elim
  | zero s =>
    have hnone : units 0 0 = 0 := Nat.zero_mul _
    refine ⟨.positive, 0, 0, by decide, by decide, ?_, ?_⟩
    · rw [hnone]
      decide
    · rw [hnone]
      rfl
  | finite s m e hm =>
    rw [valueOf_finite, natAbs_apply] at hbelow
    exact ⟨s, m, e, hcanonical.1, hcanonical.2.1, hbelow, valueOf_finite s⟩

/-- A sum of two magnitudes with their signs that is not zero is the exact sum rounded. -/
theorem exists_round_of_finite {m' : Nat} {e' : Int} {s' : Sign} {hm : 0 < m} {hm' : 0 < m'}
    (he : -149 ≤ min e e')
    (hne : valueOf (.finite s m e hm) + valueOf (.finite s' m' e' hm') ≠ 0) :
    ∃ (t : Sign) (k : Nat) (c : Int), 0 < k ∧ -149 ≤ c ∧
      valueOf (.finite s m e hm) + valueOf (.finite s' m' e' hm') = t.apply (units k c : Nat) ∧
      valueOf (unpackBits (packBits (UnpackedFloat.add Format.binary32 (.finite s m e hm)
          (.finite s' m' e' hm'))))
        = valueOf (unpackBits (packBits (UnpackedFloat.round Format.binary32 t k c))) := by
  have hsum := aligned_sum s s' hm hm' he
  have hmantissa : s.apply (m <<< (e - min e e').toNat : Nat)
      + s'.apply (m' <<< (e' - min e e').toNat : Nat) ≠ 0 := by
    intro hzero
    rw [hzero, Int.zero_mul] at hsum
    exact hne hsum.symm
  obtain ⟨t, k, hk, hsign⟩ := exists_apply hmantissa
  refine ⟨t, k, min e e', hk, he, ?_, ?_⟩
  · rw [← hsum, hsign, ← apply_mul]
    rfl
  · rw [← normalize_apply hk, ← hsign]
    rfl

/-- A sum is zero, or the exact sum rounded. -/
theorem value_add_cases (hx : x.isFinite = true) (hy : y.isFinite = true) :
    x.value + y.value = 0 ∧ (x + y).value = 0 ∨
    ∃ (s : Sign) (m : Nat) (e : Int), 0 < m ∧ -149 ≤ e ∧
      x.value + y.value = s.apply (units m e : Nat) ∧
      (x + y).value
        = valueOf (unpackBits (packBits (UnpackedFloat.round Format.binary32 s m e))) := by
  obtain ⟨hxn, hxv⟩ := isFinite_iff.mp hx
  obtain ⟨hyn, hyv⟩ := isFinite_iff.mp hy
  by_cases hzero : x.value + y.value = 0
  · exact .inl ⟨hzero, (equals_zero_of_sum hx hy hzero).value⟩
  refine .inr ?_
  have hx' := canonical_of_isNaN hxn
  have hy' := canonical_of_isNaN hyn
  have hxi := ne_infinity_of_value hxv
  have hyi := ne_infinity_of_value hyv
  have hadd : (x + y).value = valueOf (unpackBits (packBits (UnpackedFloat.add Format.binary32
      x.unpacked y.unpacked))) := congrArg valueOf (unpacked_add x y)
  rw [hadd]
  unfold value at hzero ⊢
  generalize x.unpacked = u at hx' hxi hzero ⊢
  generalize y.unpacked = v at hy' hyi hzero ⊢
  cases u with
  | notANumber => exact hx'.elim
  | infinity s => exact (hxi s rfl).elim
  | zero s =>
    cases v with
    | notANumber => exact hy'.elim
    | infinity s' => exact (hyi s' rfl).elim
    | zero s' => exact (hzero rfl).elim
    | finite s' m' e' hm' =>
      refine ⟨s', m', e', hm', hy'.2.1, Int.zero_add _, ?_⟩
      rw [round_canonical hm' hy'.2.1 hy' rfl]
      rfl
  | finite s m e hm =>
    cases v with
    | notANumber => exact hy'.elim
    | infinity s' => exact (hyi s' rfl).elim
    | zero s' =>
      refine ⟨s, m, e, hm, hx'.2.1, Int.add_zero _, ?_⟩
      rw [round_canonical hm hx'.2.1 hx' rfl]
      rfl
    | finite s' m' e' hm' =>
      have he : -149 ≤ min e e' := by
        have hlow := hx'.2.1
        have hlow' := hy'.2.1
        omega
      exact exists_round_of_finite he hzero

/-- A sum keeps to the order of the numbers, as the exact sum does. -/
theorem value_add_order (hx : x.isFinite = true) (hy : y.isFinite = true)
    (hz : z.isFinite = true) :
    (z.value ≤ x.value + y.value → z.value ≤ (x + y).value) ∧
      (x.value + y.value ≤ z.value → (x + y).value ≤ z.value) := by
  obtain ⟨hzero, hsum⟩ | ⟨s, m, e, hm, he, hsum, hround⟩ := value_add_cases hx hy
  · rw [hsum, ← hzero]
    exact ⟨id, id⟩
  obtain ⟨k, hk, horder⟩ := exists_round hm he s
  obtain ⟨s', n, e', hn, he', hbelow, hvalue⟩ := exists_mantissa hz
  obtain ⟨hreach, hstay⟩ := horder n e' hn he' hbelow
  rw [hround, hk, hvalue, hsum]
  cases s <;> cases s' <;> simp only [Sign.apply] <;> omega

/-- **A sum reaches every number that the exact sum reaches.** -/
theorem le_value_add (hx : x.isFinite = true) (hy : y.isFinite = true) (hz : z.isFinite = true)
    (hle : z.value ≤ x.value + y.value) : z.value ≤ (x + y).value :=
  (value_add_order hx hy hz).1 hle

/-- **A sum stays below every number that the exact sum stays below.** -/
theorem value_add_le (hx : x.isFinite = true) (hy : y.isFinite = true) (hz : z.isFinite = true)
    (hle : x.value + y.value ≤ z.value) : (x + y).value ≤ z.value :=
  (value_add_order hx hy hz).2 hle

end PixelPipeline.Binary32
