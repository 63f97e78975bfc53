import Mathlib.Algebra.Order.Group.MinMax
import PixelPipeline.Proofs.Binary32.Error
import PixelPipeline.Proofs.Binary32.Saturation

/-!
# Scaled codes

A code is an integer of at most sixteen bits, and the number that it stands for is its
quotient by the greatest code.  Two roundings move the quotient, multiplied by the greatest
code again, by much less than one half, so rounding to an integer gives the code back
(`rounded_scaled`).
-/

namespace PixelPipeline.Binary32

variable {g : Nat} {i : Int} {x y c lo hi : Binary32} {q : ℚ}

/-! ## Rational values of numbers -/

/-- The rational value of an integer is the integer. -/
theorem Whole.rational (hx : Whole x i) : rational x = i := by
  unfold Binary32.rational
  rw [hx.value, Int.cast_mul, Int.cast_natCast, mul_div_cancel_right₀ _ unitCount_pos.ne']

/-- The rational value of zero. -/
theorem rational_zero : rational zero = 0 := rational_of_value rfl

/-- The rational value of one. -/
theorem rational_one : rational one = 1 :=
  (Whole.rational (i := 1) ⟨rfl, rfl⟩).trans Int.cast_one

/-- The rational value of minus one. -/
theorem rational_neg_one : rational (-one) = -1 := by
  rw [(Whole.neg (x := one) (i := 1) ⟨rfl, rfl⟩).rational, Int.cast_neg, Int.cast_one]

/-- Rational values have the order of the values. -/
theorem rational_le (hle : x.value ≤ y.value) : rational x ≤ rational y :=
  div_le_div_of_nonneg_right (Int.cast_le.mpr hle) unitCount_pos.le

/-- The nearest integer, where it is clear which one that is. -/
theorem rounded_of_near (hnumber : x.isNaN = false) (hnear : |rational x - i| < 1 / 2) :
    rounded x = i := by
  have hunit := unitCount_pos
  obtain ⟨-, hrounded⟩ := whole_rounded hnumber
  have hdistance : |(rounded x : ℚ) - rational x| ≤ 1 / 2 := by
    have hscaled : (rounded x : ℚ) - rational x
        = ((rounded x * unitCount - x.value : Int) : ℚ) / (unitCount : Nat) := by
      unfold rational
      rw [Int.cast_sub, Int.cast_mul, Int.cast_natCast, sub_div,
        mul_div_cancel_right₀ _ hunit.ne']
    have hcast : 2 * |((rounded x * unitCount - x.value : Int) : ℚ)| ≤ (unitCount : Nat) := by
      rw [← Int.cast_abs, ← Int.natCast_natAbs]
      exact_mod_cast hrounded
    rw [hscaled, abs_div, abs_of_pos hunit, div_le_iff₀ hunit]
    linarith
  have hclose : |(rounded x : ℚ) - i| < 1 := by
    rw [abs_lt] at hnear ⊢
    rw [abs_le] at hdistance
    constructor
    · linarith
    · linarith
  have hint : |rounded x - i| < 1 := by exact_mod_cast hclose
  rw [abs_lt] at hint
  omega

/-! ## Clamping what is near -/

/-- Clamping numbers clamps their values. -/
theorem rational_clamp (hlo : lo.isNaN = false) (hhi : hi.isNaN = false) (hx : x.isNaN = false) :
    rational (clamp lo hi x) = min (rational hi) (max (rational lo) (rational x)) := by
  obtain ⟨-, hvalue⟩ := value_clamp hlo hhi hx
  unfold rational
  rw [hvalue, Int.cast_min, Int.cast_max, max_div_div_right unitCount_pos.le,
    min_div_div_right unitCount_pos.le]

/-- The larger of two numbers. -/
theorem rational_larger (hx : x.isNaN = false) (hy : y.isNaN = false) :
    (larger x y).isNaN = false ∧ rational (larger x y) = max (rational x) (rational y) := by
  unfold larger
  rw [hx, Bool.false_or]
  by_cases hle : le x y = true
  · have hvalue := rational_le ((le_iff hx hy).mp hle)
    rw [if_pos hle]
    exact ⟨hy, (max_eq_right hvalue).symm⟩
  · have hlt : ¬ x.value ≤ y.value := fun hvalue => hle ((le_iff hx hy).mpr hvalue)
    have hvalue := rational_le (le_of_not_ge hlt)
    rw [if_neg hle]
    exact ⟨hx, (max_eq_left hvalue).symm⟩

/-- A bound does not move a number away from what lies within it. -/
theorem Near.larger (hnear : Near x q) (hy : y.isNaN = false) (hlow : rational y ≤ q) :
    Near (larger x y) q := by
  obtain ⟨hnumber, hvalue⟩ := rational_larger hnear.number hy
  refine ⟨hnumber, le_trans ?_ hnear.error⟩
  rw [hvalue]
  calc |max (rational x) (rational y) - q|
      = |max (rational x) (rational y) - max q (rational y)| := by rw [max_eq_left hlow]
    _ ≤ |rational x - q| := abs_max_sub_max_le_abs _ _ _

/-- Clamping keeps a number near a value inside the bounds. -/
theorem Near.clamp (hnear : Near x q) (hlo : lo.isNaN = false) (hhi : hi.isNaN = false)
    (hlow : rational lo ≤ q) (hhigh : q ≤ rational hi) : Near (clamp lo hi x) q := by
  refine ⟨(value_clamp hlo hhi hnear.number).1, le_trans ?_ hnear.error⟩
  rw [rational_clamp hlo hhi hnear.number]
  calc |min (rational hi) (max (rational lo) (rational x)) - q|
      = |min (rational hi) (max (rational lo) (rational x)) - min (rational hi) q| := by
        rw [min_eq_right hhigh]
    _ ≤ max |rational hi - rational hi| |max (rational lo) (rational x) - q| :=
        abs_min_sub_min_le_max _ _ _ _
    _ = |max (rational x) (rational lo) - max q (rational lo)| := by
        rw [sub_self, abs_zero, max_eq_right (abs_nonneg _), max_eq_left hlow, max_comm]
    _ ≤ |rational x - q| := abs_max_sub_max_le_abs _ _ _

/-! ## Codes -/

/-- What is neither smaller nor larger than 17 binary digits is in the range. -/
theorem inRange_of_bounds (hlow : 1 / 2 ^ 17 ≤ |q|) (hhigh : |q| ≤ 2 ^ 17) : InRange q := by
  have hleast : (2 : ℚ) ^ (-126 : Int) ≤ 2 ^ (-17 : Int) :=
    zpow_le_zpow_right₀ one_lt_two.le (by decide)
  have hgreatest : (2 : ℚ) ^ (17 : Int) < 2 ^ (127 : Int) :=
    zpow_lt_zpow_right₀ one_lt_two (by decide)
  have hinverse : (2 : ℚ) ^ (-17 : Int) = 1 / 2 ^ 17 := by
    rw [zpow_neg, one_div]
    rfl
  exact .inr ⟨le_trans (hinverse ▸ hleast) hlow, lt_of_le_of_lt hhigh hgreatest⟩

/-- What is near to the interval from minus one to one is finite. -/
theorem Near.isFinite (hnear : Near x q) (hq : |q| ≤ 1) : x.isFinite = true := by
  have hunit := unitCount_pos
  refine isFinite_iff.mpr ⟨hnear.number, ?_⟩
  have hrational : |rational x| ≤ 2 := by
    have herror := hnear.error
    have htriangle := abs_add_le (rational x - q) q
    rw [sub_add_cancel] at htriangle
    linarith
  have hvalue : |(x.value : ℚ)| ≤ (2 * unitCount : Nat) := by
    unfold rational at hrational
    rw [abs_div, abs_of_pos hunit, div_le_iff₀ hunit] at hrational
    rwa [Nat.cast_mul, Nat.cast_ofNat]
  have hnat : x.value.natAbs ≤ 2 * unitCount := by
    rw [← Int.cast_abs, ← Int.natCast_natAbs] at hvalue
    exact_mod_cast hvalue
  exact Nat.lt_of_le_of_lt hnat (by decide)

/-- A bound on an integer bounds its rational value. -/
theorem abs_cast_le (hi : i.natAbs ≤ g) : |(i : ℚ)| ≤ g := by
  rw [← Int.cast_abs, ← Int.natCast_natAbs, Int.cast_natCast]
  exact_mod_cast hi

/-- An integer that is not zero has magnitude at least one. -/
theorem one_le_abs_cast (hne : i ≠ 0) : 1 ≤ |(i : ℚ)| := by
  have hpos : 1 ≤ i.natAbs := Nat.one_le_iff_ne_zero.mpr (Int.natAbs_ne_zero.mpr hne)
  rw [← Int.cast_abs, ← Int.natCast_natAbs, Int.cast_natCast]
  exact_mod_cast hpos

/-- A code divided by the greatest one. -/
theorem near_quotient (hg : 0 < g) (hlt : g < 2 ^ 16) (hi : i.natAbs ≤ g) :
    Near (ofInt i / ofNat g) (i / g) := by
  have hcode : Whole (ofInt i) i := whole_ofInt (by omega)
  have hgreatest : Whole (ofNat g) g := whole_ofNat (by omega)
  have hrational := hgreatest.rational
  rw [Int.cast_natCast] at hrational
  have hne : (ofNat g).value ≠ 0 := by
    rw [hgreatest.value]
    exact Int.mul_ne_zero (by omega) (by decide)
  rw [← hcode.rational, ← hrational]
  refine near_div (hcode.isFinite (by omega)) (hgreatest.isFinite (by omega)) hne ?_
  rw [hcode.rational, hrational]
  by_cases hzero : i = 0
  · exact .inl (by rw [hzero, Int.cast_zero, zero_div])
  · have hpos : (0 : ℚ) < g := Nat.cast_pos.mpr hg
    have hone := one_le_abs_cast hzero
    have hle := abs_cast_le hi
    have hbound : (g : ℚ) ≤ 2 ^ 16 := by exact_mod_cast Nat.le_of_lt hlt
    refine inRange_of_bounds ?_ ?_
    · rw [abs_div, abs_of_pos hpos, div_le_div_iff₀ (by positivity) hpos]
      linarith
    · rw [abs_div, abs_of_pos hpos, div_le_iff₀ hpos]
      linarith

/-- The product with the greatest code is near to the code, up to the errors of both
roundings. -/
theorem Near.scale (hg : 0 < g) (hlt : g < 2 ^ 16) (hi : i.natAbs ≤ g) (hnear : Near c (i / g)) :
    ∃ p : ℚ, Near (c * ofNat g) p ∧ |p - i| ≤ |(i : ℚ)| / 2 ^ 24 := by
  have hgreatest : Whole (ofNat g) g := whole_ofNat (by omega)
  have hrational := hgreatest.rational
  rw [Int.cast_natCast] at hrational
  have hpos : (0 : ℚ) < g := Nat.cast_pos.mpr hg
  have hle := abs_cast_le hi
  have hbound : (g : ℚ) ≤ 2 ^ 16 := by exact_mod_cast Nat.le_of_lt hlt
  have herror : |rational c * g - i| ≤ |(i : ℚ)| / 2 ^ 24 := by
    have hsplit : rational c * g - i = (rational c - i / g) * g := by
      rw [sub_mul, div_mul_cancel₀ _ hpos.ne']
    calc |rational c * g - i| = |rational c - i / g| * g := by
          rw [hsplit, abs_mul, abs_of_pos hpos]
      _ ≤ |(i : ℚ) / g| / 2 ^ 24 * g := mul_le_mul_of_nonneg_right hnear.error hpos.le
      _ = |(i : ℚ)| / 2 ^ 24 := by
          rw [abs_div, abs_of_pos hpos, div_right_comm, div_mul_cancel₀ _ hpos.ne']
  have hfinite : c.isFinite = true := by
    refine hnear.isFinite ?_
    rw [abs_div, abs_of_pos hpos, div_le_one hpos]
    exact hle
  refine ⟨rational c * g, ?_, herror⟩
  have hrange : InRange (rational c * g) := by
    by_cases hzero : i = 0
    · rw [hzero, Int.cast_zero, abs_zero, zero_div, sub_zero] at herror
      exact .inl (abs_nonpos_iff.mp herror)
    · have hone := one_le_abs_cast hzero
      have hnear := abs_sub_abs_le_abs_sub (rational c * g) i
      have hnear' := abs_sub_abs_le_abs_sub (i : ℚ) (rational c * g)
      rw [abs_sub_comm] at hnear'
      exact inRange_of_bounds (by linarith) (by linarith)
  rw [← hrational] at hrange ⊢
  exact near_mul hfinite (hgreatest.isFinite (by omega)) hrange

/-- **A quotient by the greatest code, multiplied by it, is rounded to the code**, whatever
the number is that the quotient was rounded to. -/
theorem rounded_scaled (hg : 0 < g) (hlt : g < 2 ^ 16) (hi : i.natAbs ≤ g)
    (hnear : Near c (i / g)) : rounded (c * ofNat g) = i := by
  obtain ⟨p, hproduct, hp⟩ := hnear.scale hg hlt hi
  have herror := hproduct.error
  have hle := abs_cast_le hi
  have hbound : (g : ℚ) ≤ 2 ^ 16 := by exact_mod_cast Nat.le_of_lt hlt
  have hmagnitude := abs_sub_abs_le_abs_sub p i
  refine rounded_of_near hproduct.number ?_
  calc |rational (c * ofNat g) - i|
      ≤ |rational (c * ofNat g) - p| + |p - i| := abs_sub_le _ _ _
    _ ≤ |p| / 2 ^ 24 + |(i : ℚ)| / 2 ^ 24 := add_le_add herror hp
    _ < 1 / 2 := by linarith

end PixelPipeline.Binary32
