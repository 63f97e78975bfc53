import Mathlib.Algebra.Order.Field.Basic
import Mathlib.Algebra.Order.Field.Power
import Mathlib.Algebra.Order.Ring.Abs
import Mathlib.Tactic.FieldSimp
import Mathlib.Tactic.Linarith
import PixelPipeline.Proofs.Binary32.Integral

/-!
# Rounding to the nearest number

A mantissa with its round and sticky bits stands for a number between that mantissa and the
next (`Represents`).  Shifting keeps what it stands for, so what is rounded at the end is the
exact result, and rounding takes the nearest mantissa (`Represents.roundedMantissa`).  Where
the mantissas are full, half a unit of the last digit is a relative error of `2 ^ -24`
(`roundWithAccuracy_near`).
-/

namespace PixelPipeline.Binary32

open Float.Model (UnpackedFloat Format totalExponent)
open Float.Model.UnpackedFloat

variable {m n : Nat} {e : Int} {s : Sign} {a : Accuracy} {em : ExtendedMantissa} {x : ℚ}

/-! ## What the bits behind a mantissa say -/

/-- The number for which a mantissa stands with its round and sticky bits. -/
def Represents : ExtendedMantissa → ℚ → Prop
  | ⟨m, false, false⟩, x => x = m
  | ⟨m, false, true⟩, x => m < x ∧ x < m + 1 / 2
  | ⟨m, true, false⟩, x => x = m + 1 / 2
  | ⟨m, true, true⟩, x => m + 1 / 2 < x ∧ x < m + 1

/-- An exact mantissa represents itself. -/
theorem represents_exact (m : Nat) :
    Represents (ExtendedMantissa.ofMantissaAndAccuracy m .exact) m := rfl

/-- A quotient with its remainder stands for the fraction. -/
theorem represents_fraction (m : Nat) {d : Nat} (hd : 0 < d) :
    Represents (ExtendedMantissa.ofMantissaAndAccuracy (m / d) (accuracyOfFraction (m % d) d))
      ((m : ℚ) / d) := by
  have hpos : (0 : ℚ) < d := Nat.cast_pos.mpr hd
  have hsplit : (m : ℚ) / d = (m / d : Nat) + ((m % d : Nat) : ℚ) / d := by
    have hdivide : (d : ℚ) * (m / d : Nat) + (m % d : Nat) = m :=
      mod_cast Nat.div_add_mod m d
    field_simp
    linarith
  have hlt : ((m % d : Nat) : ℚ) < d := Nat.cast_lt.mpr (Nat.mod_lt m hd)
  rw [hsplit]
  generalize m / d = q
  generalize m % d = r at hlt ⊢
  unfold accuracyOfFraction
  by_cases hr : r = 0
  · rw [if_pos hr, hr, Nat.cast_zero, zero_div, add_zero]
    exact represents_exact q
  have hrest : (0 : ℚ) < r := Nat.cast_pos.mpr (Nat.pos_of_ne_zero hr)
  have hfraction : (0 : ℚ) < r / d ∧ (r : ℚ) / d < 1 :=
    ⟨div_pos hrest hpos, (div_lt_one hpos).mpr hlt⟩
  rw [if_neg hr]
  rcases Nat.lt_trichotomy (2 * r) d with hless | hhalf | hmore
  · have hbelow : (r : ℚ) / d < 1 / 2 := by
      rw [div_lt_div_iff₀ hpos two_pos]
      exact_mod_cast (by omega : r * 2 < 1 * d)
    rw [Nat.compare_eq_lt.mpr hless]
    exact ⟨by linarith, by linarith⟩
  · have hequal : (r : ℚ) / d = 1 / 2 := by
      rw [div_eq_div_iff hpos.ne' two_ne_zero]
      exact_mod_cast (by omega : r * 2 = 1 * d)
    rw [Nat.compare_eq_eq.mpr hhalf, hequal]
    rfl
  · have habove : 1 / 2 < (r : ℚ) / d := by
      rw [div_lt_div_iff₀ two_pos hpos]
      exact_mod_cast (by omega : 1 * d < r * 2)
    rw [Nat.compare_eq_gt.mpr hmore]
    exact ⟨by linarith, by linarith⟩

/-- Cutting off a digit halves. -/
theorem Represents.shiftRightOne (hrep : Represents em x) :
    Represents em.shiftRightOne (x / 2) := by
  obtain ⟨m, roundBit, stickyBit⟩ := em
  have hsplit : (m : ℚ) = 2 * (m / 2 : Nat) + (m % 2 : Nat) := mod_cast (Nat.div_add_mod m 2).symm
  unfold ExtendedMantissa.shiftRightOne
  dsimp only
  rcases Nat.mod_two_eq_zero_or_one m with heven | hodd
  · rw [heven, Nat.cast_zero] at hsplit
    rw [heven]
    cases roundBit <;> cases stickyBit <;> simp only [Represents] at hrep
    · exact (by linarith : x / 2 = (m / 2 : Nat))
    · exact ⟨by linarith, by linarith⟩
    · exact ⟨by linarith, by linarith⟩
    · exact ⟨by linarith, by linarith⟩
  · rw [hodd, Nat.cast_one] at hsplit
    rw [hodd]
    cases roundBit <;> cases stickyBit <;> simp only [Represents] at hrep
    · exact (by linarith : x / 2 = (m / 2 : Nat) + 1 / 2)
    · exact ⟨by linarith, by linarith⟩
    · exact ⟨by linarith, by linarith⟩
    · exact ⟨by linarith, by linarith⟩

/-- A shift to the right divides what is represented. -/
theorem Represents.shiftRight (hrep : Represents em x) (n : Nat) :
    Represents (em >>> n) (x / 2 ^ n) := by
  induction n with
  | zero =>
    rw [pow_zero, div_one]
    exact hrep
  | succ n ih =>
    have hstep : em >>> (n + 1) = (em >>> n).shiftRightOne := rfl
    rw [hstep, pow_succ, ← div_div]
    exact ih.shiftRightOne

/-- A mantissa with round and sticky bits stands for no less than itself and less than the
next. -/
theorem Represents.bounds {em : ExtendedMantissa} (hrep : Represents em x) :
    (em.mantissa : ℚ) ≤ x ∧ x < em.mantissa + 1 := by
  obtain ⟨m, roundBit, stickyBit⟩ := em
  cases roundBit <;> cases stickyBit <;> simp only [Represents] at hrep ⊢
  · exact ⟨by linarith, by linarith⟩
  · exact ⟨by linarith, by linarith⟩
  · exact ⟨by linarith, by linarith⟩
  · exact ⟨by linarith, by linarith⟩

/-- **Rounding takes the nearest mantissa.** -/
theorem Represents.roundedMantissa (hrep : Represents em x) :
    |(em.roundedMantissa : ℚ) - x| ≤ 1 / 2 := by
  obtain ⟨m, roundBit, stickyBit⟩ := em
  unfold ExtendedMantissa.roundedMantissa ExtendedMantissa.accuracy Accuracy.roundToNearestEven
  rw [abs_le]
  cases roundBit <;> cases stickyBit <;> simp only [Represents] at hrep ⊢
  · exact ⟨by linarith, by linarith⟩
  · exact ⟨by linarith, by linarith⟩
  · have hparity : ((m % 2 : Nat) : ℚ) ≤ 1 := by
      exact_mod_cast Nat.le_of_lt_succ (Nat.mod_lt m two_pos)
    have hnonneg : (0 : ℚ) ≤ (m % 2 : Nat) := Nat.cast_nonneg _
    rw [Nat.cast_add]
    exact ⟨by linarith, by linarith⟩
  · rw [Nat.cast_add, Nat.cast_one]
    exact ⟨by linarith, by linarith⟩

/-! ## The error of a rounded result -/

/-- One in units of the least number, as a power of two. -/
theorem unitCount_cast : ((unitCount : Nat) : ℚ) = 2 ^ (149 : Int) := by
  unfold unitCount
  rw [Nat.cast_pow, Nat.cast_ofNat]
  exact (zpow_natCast 2 149).symm

/-- One is a positive number of units. -/
theorem unitCount_pos : (0 : ℚ) < (unitCount : Nat) := by
  rw [unitCount_cast]
  exact zpow_pos two_pos _

/-- A magnitude as a rational number. -/
theorem units_cast (he : -149 ≤ e) :
    ((units m e : Nat) : ℚ) / (unitCount : Nat) = m * 2 ^ e := by
  have hpow : ((2 : ℚ) ^ (e + 149).toNat) = 2 ^ e * (unitCount : Nat) := by
    rw [← zpow_natCast, Int.toNat_of_nonneg (by omega), zpow_add₀ two_ne_zero, unitCount_cast]
  unfold units
  rw [Nat.cast_mul, Nat.cast_pow, Nat.cast_ofNat, hpow, ← mul_assoc,
    mul_div_cancel_right₀ _ unitCount_pos.ne']

/-- Rounding to a power of two, which takes one more digit off. -/
theorem roundWithAccuracy_carry (k : Nat)
    (htarget : Format.binary32.targetExponent (totalExponent m e) = e + k)
    (hrounded : (ExtendedMantissa.ofMantissaAndAccuracy m a >>> k).roundedMantissa = 2 ^ 24)
    (hlow : -149 ≤ e + k) :
    roundWithAccuracy Format.binary32 s m e a
      = .finite s (2 ^ 23) (e + k + 1) (Nat.two_pow_pos 23) := by
  have htotal : totalExponent (2 ^ 24) (e + k) = e + k + 25 := by
    unfold totalExponent
    rw [Nat.log2_two_pow]
    omega
  have hsecond : Format.binary32.targetExponent (totalExponent (2 ^ 24) (e + k))
      = e + k + (1 : Nat) := by
    rw [htotal]
    change max (e + k + 25 - 24) (-149) = e + k + 1
    omega
  unfold roundWithAccuracy
  rw [shiftToTargetExponent_eq k htarget]
  dsimp only
  rw [hrounded, shiftToTargetExponent_eq 1 hsecond]
  rfl

/-- What a rounded mantissa amounts to, whether it is carried over or not. -/
theorem valueOf_roundWithAccuracy {r : Nat} (k : Nat)
    (htarget : Format.binary32.targetExponent (totalExponent m e) = e + k)
    (hrounded : (ExtendedMantissa.ofMantissaAndAccuracy m a >>> k).roundedMantissa = r)
    (hlow : 2 ^ 23 ≤ r) (hhigh : r ≤ 2 ^ 24) (he : -149 ≤ e + k) (he' : e + k ≤ 103) :
    Canonical (roundWithAccuracy Format.binary32 s m e a) ∧
      valueOf (roundWithAccuracy Format.binary32 s m e a) = s.apply (units r (e + k)) := by
  by_cases hcarry : r = 2 ^ 24
  · subst hcarry
    have hpow : (e + k + 1 + 149).toNat = 1 + (e + k + 149).toNat := by omega
    have hunits : units (2 ^ 24) (e + k) = units (2 ^ 23) (e + k + 1) := by
      unfold units
      rw [hpow, Nat.pow_add, ← Nat.mul_assoc]
      rfl
    rw [roundWithAccuracy_carry k htarget hrounded he, valueOf_finite, hunits]
    exact ⟨⟨by decide, by omega, by omega, .inl (Nat.le_refl _)⟩, rfl⟩
  · have hlt : r < 2 ^ 24 := Nat.lt_of_le_of_ne hhigh hcarry
    have hpos : 0 < r := Nat.lt_of_lt_of_le (by decide) hlow
    have hcanonical : Canonical (.finite s r (e + k) hpos) := ⟨hlt, he, by omega, .inl hlow⟩
    rw [roundWithAccuracy_eq k hpos htarget hrounded (targetExponent_canonical hcanonical),
      valueOf_finite]
    exact ⟨hcanonical, rfl⟩

/-- How many digits are cut off until the mantissa is full. -/
theorem Represents.exists_digits (hrep : Represents (.ofMantissaAndAccuracy m a) x)
    (hfull : 2 ^ 23 ≤ m) : ∃ n, m.log2 = n + 23 ∧ 2 ^ 23 ≤ x / 2 ^ n ∧ x / 2 ^ n < 2 ^ 24 := by
  have hm : m ≠ 0 := Nat.ne_of_gt (Nat.lt_of_lt_of_le (by decide) hfull)
  have hmantissa : (ExtendedMantissa.ofMantissaAndAccuracy m a).mantissa = m := by
    cases a with
    | exact => rfl
    | inexact o => cases o <;> rfl
  obtain ⟨hbelow, habove⟩ := hrep.bounds
  rw [hmantissa] at hbelow habove
  obtain ⟨n, hn⟩ : ∃ n, m.log2 = n + 23 := by
    have hlog := (Nat.le_log2 hm).mpr hfull
    exact ⟨m.log2 - 23, by omega⟩
  have hpow : (0 : ℚ) < 2 ^ n := pow_pos two_pos n
  refine ⟨n, hn, ?_, ?_⟩
  · have hle : 2 ^ (n + 23) ≤ m := hn ▸ Nat.log2_self_le hm
    rw [le_div_iff₀ hpow, ← pow_add, add_comm]
    exact le_trans (mod_cast hle) hbelow
  · have hlt : m + 1 ≤ 2 ^ (n + 24) := (Nat.log2_lt hm).mp (by omega)
    rw [div_lt_iff₀ hpow, ← pow_add, add_comm]
    exact lt_of_lt_of_le habove (mod_cast hlt)

/-- A mantissa nearest to a full one is full, or the next power of two. -/
theorem full_of_near {r : Nat} (hlow : 2 ^ 23 ≤ x) (hhigh : x < 2 ^ 24)
    (hnear : |(r : ℚ) - x| ≤ 1 / 2) : 2 ^ 23 ≤ r ∧ r ≤ 2 ^ 24 := by
  rw [abs_le] at hnear
  constructor
  · have hlt : (2 : ℚ) ^ 23 < r + 1 := by linarith
    exact Nat.lt_succ_iff.mp (by exact_mod_cast hlt)
  · have hlt : (r : ℚ) < 2 ^ 24 + 1 := by linarith
    exact Nat.lt_succ_iff.mp (by exact_mod_cast hlt)

/-- Full mantissas within bounds have exponents within bounds. -/
theorem exponent_of_bounds {j k : Int} (hlow : 2 ^ 23 ≤ x) (hhigh : x < 2 ^ 24)
    (hj : (2 : ℚ) ^ j ≤ x * 2 ^ e) (hk : x * 2 ^ e < 2 ^ k) : j < 24 + e ∧ 23 + e < k := by
  have hpos : (0 : ℚ) < 2 ^ e := zpow_pos two_pos e
  have hpow : ∀ i : Nat, (2 : ℚ) ^ i * 2 ^ e = 2 ^ (i + e) := fun i => by
    rw [← zpow_natCast, ← zpow_add₀ two_ne_zero]
  constructor
  · have hlt := lt_of_le_of_lt hj (mul_lt_mul_of_pos_right hhigh hpos)
    rw [hpow, zpow_lt_zpow_iff_right₀ one_lt_two] at hlt
    exact hlt
  · have hlt := lt_of_le_of_lt (mul_le_mul_of_nonneg_right hlow hpos.le) hk
    rw [hpow, zpow_lt_zpow_iff_right₀ one_lt_two] at hlt
    exact hlt

/-- **A result in the range of the full mantissas is rounded with a relative error of at
most half a unit of the last digit.** -/
theorem roundWithAccuracy_near (hrep : Represents (.ofMantissaAndAccuracy m a) x)
    (hfull : 2 ^ 23 ≤ m) (hlow : (2 : ℚ) ^ (-126 : Int) ≤ x * 2 ^ e)
    (hhigh : x * 2 ^ e < 2 ^ (127 : Int)) :
    ∃ k : Nat, Canonical (roundWithAccuracy Format.binary32 s m e a) ∧
      valueOf (roundWithAccuracy Format.binary32 s m e a) = s.apply k ∧
      |(k : ℚ) / (unitCount : Nat) - x * 2 ^ e| ≤ x * 2 ^ e / 2 ^ 24 := by
  obtain ⟨n, hn, hstart, hend⟩ := hrep.exists_digits hfull
  have hround := (hrep.shiftRight n).roundedMantissa
  have hscale : x * 2 ^ e = x / 2 ^ n * 2 ^ (e + n) := by
    have hpow : (2 : ℚ) ^ n ≠ 0 := pow_ne_zero n two_ne_zero
    rw [Int.add_comm, zpow_add₀ two_ne_zero, zpow_natCast, ← mul_assoc, div_mul_cancel₀ _ hpow]
  rw [hscale] at hlow hhigh ⊢
  generalize x / 2 ^ n = w at hstart hend hround hlow hhigh ⊢
  obtain ⟨he, he'⟩ := exponent_of_bounds hstart hend hlow hhigh
  have htarget : Format.binary32.targetExponent (totalExponent m e) = e + n := by
    change max ((m.log2 : Int) + 1 + e - 24) (-149) = _
    omega
  obtain ⟨hrlow, hrhigh⟩ := full_of_near hstart hend hround
  obtain ⟨hcanonical, hvalue⟩ := valueOf_roundWithAccuracy (s := s) n htarget rfl hrlow hrhigh
    (by omega) (by omega)
  have hlast : (0 : ℚ) < 2 ^ (e + n) := zpow_pos two_pos _
  refine ⟨_, hcanonical, hvalue, ?_⟩
  -- half a unit of the last digit is at most the part `2 ^ -24` of a full mantissa
  rw [units_cast (by omega), ← sub_mul, abs_mul, abs_of_pos hlast, mul_div_right_comm]
  refine mul_le_mul_of_nonneg_right (le_trans hround ?_) hlast.le
  linarith

end PixelPipeline.Binary32
