import PixelPipeline.Proofs.Binary32.Floor
import PixelPipeline.Proofs.Texture.Filtering
import PixelPipeline.Proofs.Texture.Wrapping

/-!
# Splitting a coordinate

A coordinate is split into the floor of its position, in texels from the centre of the first
one, and the fraction beyond.  The fraction of a position that is not finite is zero; every
other one is not negative and at most one (`AxisCoord.frac_bounds`).

The position is a distance from one half.  Numbers near one half are so far apart that none
but the greatest below it is negative and almost zero afterwards (`Binary32.value_sub_half`).
So that is the one product of coordinate and size whose fraction is rounded up to one
(`AxisCoord.frac_lt_one_iff`).
-/

namespace PixelPipeline

namespace Binary32

variable {p : Binary32}

/-- The greatest number below one half. -/
def belowHalf : Binary32 := ⟨0x3effffff⟩

/-- The value of one half. -/
theorem value_half : half.value = (2 ^ 24 * 2 ^ 124 : Nat) := rfl

/-- The value of the number below one half. -/
theorem value_belowHalf : belowHalf.value = ((2 ^ 24 - 1) * 2 ^ 124 : Nat) := rfl

/-- Only a finite number is at a finite distance from one half. -/
theorem isFinite_of_sub_half (hfinite : (p - half).isFinite = true) : p.isFinite = true := by
  have hnumber : p.isNaN = false := by
    refine Bool.eq_false_iff.mpr fun hnan => ?_
    have hlift : (p - half).isNaN = true := isNaN_lift (.inl hnan)
    rw [(isFinite_iff.mp hfinite).1] at hlift
    cases hlift
  have hcanonical := canonical_of_isNaN hnumber
  have hbelow := (isFinite_iff.mp hfinite).2
  have hsum := unpacked_add p (-half)
  rw [value_sub] at hbelow
  refine isFinite_iff.mpr ⟨hnumber, ?_⟩
  unfold value at hbelow ⊢
  rw [hsum] at hbelow
  generalize p.unpacked = u at hcanonical hbelow ⊢
  cases u with
  | notANumber => exact hcanonical.elim
  | infinity s => cases s <;> exact absurd hbelow (by decide +kernel)
  | zero s =>
    rw [valueOf_zero]
    decide
  | finite s m e hm =>
    rw [valueOf_finite, natAbs_apply]
    exact units_lt hcanonical.1 hcanonical.2.2.1

/-- **No number but one** lies closely below one half. -/
theorem value_sub_half (hfinite : p.isFinite = true) (hne : p ≠ belowHalf) :
    0 ≤ (p - half).value ∨ (p - half).value ≤ -(2 ^ 125 : Nat) := by
  have hhalf : (-half).isFinite = true := rfl
  have hsum : p.value + (-half).value = p.value - (2 ^ 24 * 2 ^ 124 : Nat) := rfl
  rw [value_sub]
  by_cases habove : half.value ≤ p.value
  · rw [value_half] at habove
    refine .inl (le_value_add (z := zero) hfinite hhalf rfl ?_)
    rw [hsum, value_zero]
    omega
  right
  rw [value_half] at habove
  by_cases hfar : p.value ≤ (2 ^ 23 * 2 ^ 124 : Nat)
  · -- at least a quarter below
    have hquarter : (⟨0xbe800000⟩ : Binary32).value = -(2 ^ 23 * 2 ^ 124 : Nat) := rfl
    have hle := value_add_le (z := ⟨0xbe800000⟩) hfinite hhalf rfl (by rw [hsum, hquarter]; omega)
    rw [hquarter] at hle
    omega
  · -- a multiple of half of the distance
    have hlarge : 2 ^ (124 + 23) ≤ p.value.natAbs := by omega
    obtain ⟨c, hc⟩ := dvd_value hfinite hlarge
    have hother : p.value ≠ belowHalf.value := fun hvalue => hne <|
      Equals.eq_of_value_ne ⟨(isFinite_iff.mp hfinite).1, rfl, hvalue⟩ (by omega)
    have hnext : (⟨0xb3800000⟩ : Binary32).value = -(2 ^ 125 : Nat) := rfl
    rw [value_belowHalf] at hother
    have hle := value_add_le (z := ⟨0xb3800000⟩) hfinite hhalf rfl (by rw [hsum, hnext]; omega)
    rw [hnext] at hle
    exact hle

end Binary32

namespace AxisCoord

open Binary32

variable (coord : Binary32) (size : Nat) (mode : AddressMode)

/-- The fraction of a finite position is what is left without its floor. -/
theorem frac_of_isFinite (hfinite : (coord * ofNat size - half).isFinite = true) :
    (ofCoord coord size mode).frac
      = coord * ofNat size - half - floor (coord * ofNat size - half) :=
  if_pos hfinite

/-- The fraction of any other position is zero. -/
theorem frac_of_not_isFinite (hinfinite : ¬ (coord * ofNat size - half).isFinite = true) :
    (ofCoord coord size mode).frac = zero :=
  if_neg hinfinite

/-- The fraction lies from zero to one. -/
theorem frac_bounds : le zero (ofCoord coord size mode).frac = true ∧
    le (ofCoord coord size mode).frac one = true := by
  have hnumber := (within_frac coord size mode).number
  rw [le_iff rfl hnumber, le_iff hnumber rfl, value_zero, value_one]
  by_cases hfinite : (coord * ofNat size - half).isFinite = true
  · rw [frac_of_isFinite coord size mode hfinite]
    exact value_sub_floor hfinite
  · rw [frac_of_not_isFinite coord size mode hfinite]
    decide

/-- The fraction is less than one, unless the product is the greatest number below one half. -/
theorem frac_lt_one_iff : lt (ofCoord coord size mode).frac one = true
    ↔ coord * ofNat size ≠ belowHalf := by
  by_cases hfinite : (coord * ofNat size - half).isFinite = true
  · have hnumber := (within_frac coord size mode).number
    rw [lt_iff hnumber rfl, value_one]
    rw [frac_of_isFinite coord size mode hfinite] at hnumber ⊢
    constructor
    · intro hlt heq
      rw [heq] at hlt
      exact absurd hlt (by decide +kernel)
    · intro hne
      exact sub_floor_lt_one hfinite (value_sub_half (isFinite_of_sub_half hfinite) hne)
  · rw [frac_of_not_isFinite coord size mode hfinite]
    refine iff_of_true rfl fun heq => hfinite ?_
    rw [heq]
    rfl

/-- The texel of a position is its floor, as a word. -/
theorem block_eq (hfinite : (coord * ofNat size - half).isFinite = true) :
    (ofCoord coord size mode).block
      = saturate (2 ^ 63) (2 ^ 63 - 1) ⌊rational (coord * ofNat size - half)⌋ :=
  toInt64_floor (isFinite_iff.mp hfinite).1

/-- **A coordinate is split at the floor of its position.**  The fraction is not negative and
at most one, and it is one for a single product of coordinate and size.  The texel is the floor
of every finite position whose floor is a word. -/
theorem ofCoord_split (coord : Binary32) (size : Nat) (mode : AddressMode) :
    let product := coord * ofNat size
    let position := product - half
    let axis := ofCoord coord size mode
    le zero axis.frac = true ∧ le axis.frac one = true ∧
      (lt axis.frac one = true ↔ product ≠ belowHalf) ∧
      (position.isFinite = true → IsWord ⌊rational position⌋ →
        axis.block = ⌊rational position⌋) := by
  intro product position axis
  refine ⟨(frac_bounds coord size mode).1, (frac_bounds coord size mode).2,
    frac_lt_one_iff coord size mode, fun hfinite hword => ?_⟩
  have hlow := hword.1
  have hhigh : ⌊rational position⌋ ≤ (2 ^ 63 - 1 : Nat) := Int.le_sub_one_of_lt hword.2
  exact (block_eq coord size mode hfinite).trans (saturate_eq_self hlow hhigh)

/-- The middle of four texels is split at the floor of its position. -/
theorem ofCoord_split_middle :
    let position := half * ofNat 4 - half
    position.isFinite = true ∧ IsWord ⌊rational position⌋ ∧
      (ofCoord half 4 .wrapAround).block = ⌊rational position⌋ := by
  have hfloor : ⌊rational (half * ofNat 4 - half)⌋ = 1 := (floor_rational _).trans rfl
  have hword : IsWord ⌊rational (half * ofNat 4 - half)⌋ := by
    rw [hfloor]
    decide
  exact ⟨rfl, hword, (ofCoord_split half 4 .wrapAround).2.2.2 rfl hword⟩

/-- The position is below zero, and nearer to it than a fraction can say. -/
theorem ofCoord_belowHalf : (ofCoord belowHalf 1 .wrapAround).frac = one ∧
    lt (ofCoord belowHalf 1 .wrapAround).frac one = false ∧
      (ofCoord belowHalf 1 .wrapAround).block = -1 := by
  decide +kernel

end AxisCoord

end PixelPipeline
