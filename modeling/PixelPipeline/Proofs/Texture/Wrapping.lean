import Mathlib.Tactic.LinearCombination
import PixelPipeline.Proofs.Texture.Taps

/-!
# The laws of wrapping

Tap coordinates are signed 64-bit words and sizes positive 32-bit ones.  `AddressMode.wrap?`
wraps with every step checked against its word, and has no result when a step does not fit.
For such sizes and coordinates each step fits, so the checked result is there and is the
unchecked one (`AddressMode.wrap?_eq`): nothing overflows, not even at the least coordinate,
which has no negative.

What the modes do to the whole line of integers is said without words: repeating has the size
as its period and mirrored repeating twice the size, mirrored repeating is symmetric about the
edge before index zero, and clamping keeps the order.  `AddressMode.wrap_laws` collects all of
it.
-/

namespace PixelPipeline

/-- A signed 64-bit word holds the number. -/
def IsWord (i : Int) : Prop := -(2 ^ 63) ≤ i ∧ i < 2 ^ 63

instance : DecidablePred IsWord := fun _ => inferInstanceAs (Decidable (_ ∧ _))

/-- The result of a step, if a signed 64-bit word holds it. -/
def word? (i : Int) : Option Int := if IsWord i then some i else none

/-- An index, if a signed 32-bit word holds it. -/
def shortWord? (i : Int) : Option Int := if -(2 ^ 31) ≤ i ∧ i < 2 ^ 31 then some i else none

/-- The Euclidean remainder of words, which is missing for the divisor zero, and for the
least word and the divisor minus one. -/
def wordRemainder? (v divisor : Int) : Option Int :=
  if divisor = 0 ∨ v = -(2 ^ 63) ∧ divisor = -1 then none else word? (v % divisor)

namespace AddressMode

/-- The index that a coordinate falls on, absent when a step overflows; the inner result is
absent outside a border. -/
def wrap? (mode : AddressMode) (size v : Int) : Option (Option Int) :=
  match mode with
  | .clampToEdge => do
    let last ← word? (size - 1)
    return some (← shortWord? (max 0 (min v last)))
  | .clampToBorder => if 0 ≤ v ∧ v < size then some <$> shortWord? v else some none
  | .wrapAround => do
    let index ← wordRemainder? v size
    return some (← shortWord? index)
  | .mirroredRepeat => do
    let period ← word? (2 * size)
    let t ← wordRemainder? v period
    if t < size then return some (← shortWord? t)
    else
      let last ← word? (period - 1)
      let index ← word? (last - t)
      return some (← shortWord? index)
  | .mirrorClampToEdge => do
    let reflected ← if 0 ≤ v then some v else do
      let next ← word? (1 + v)
      word? (-next)
    let last ← word? (size - 1)
    return some (← shortWord? (min reflected last))

end AddressMode

/-! ## Steps that fit -/

section

variable {i v size divisor : Int}

/-- A number that is a word passes the check. -/
theorem word?_eq (h : IsWord i) : word? i = some i := if_pos h

/-- A number that is a short word passes the check. -/
theorem shortWord?_eq (hlow : 0 ≤ i) (hhigh : i < 2 ^ 31) : shortWord? i = some i :=
  if_pos ⟨by omega, hhigh⟩

/-- The remainder by a positive word passes the check. -/
theorem wordRemainder?_eq (hpos : 0 < divisor) (hdivisor : IsWord divisor) :
    wordRemainder? v divisor = some (v % divisor) := by
  have hnonneg := Int.emod_nonneg v (Int.ne_of_gt hpos)
  have hlt := Int.emod_lt_of_pos v hpos
  obtain ⟨-, hhigh⟩ := hdivisor
  unfold wordRemainder?
  rw [if_neg (by omega), word?_eq ⟨by omega, by omega⟩]

end

namespace AddressMode

section

variable {mode : AddressMode} {size v : Int}

/-- **No step of wrapping overflows**, whatever the coordinate. -/
theorem wrap?_eq (hpos : 1 ≤ size) (hsize : size ≤ 2 ^ 31 - 1) (hv : IsWord v) :
    mode.wrap? size v = some (mode.wrap size v) := by
  obtain ⟨hlow, hhigh⟩ := hv
  have hlast : word? (size - 1) = some (size - 1) := word?_eq ⟨by omega, by omega⟩
  -- an index in range fits its word
  have hindex : ∀ {index}, mode.wrap size v = some index → shortWord? index = some index :=
    fun hwrap => by
      obtain ⟨hnonneg, hlt⟩ := wrap_range (by omega) hwrap
      exact shortWord?_eq hnonneg (by omega)
  cases mode with
  | clampToEdge => simp [wrap?, hlast, hindex rfl, wrap]
  | clampToBorder =>
    by_cases hinside : 0 ≤ v ∧ v < size
    · have hwrap : clampToBorder.wrap size v = some v := if_pos hinside
      simp [wrap?, hinside, hindex hwrap, wrap]
    · simp [wrap?, hinside, wrap]
  | wrapAround =>
    have hremainder := wordRemainder?_eq (v := v) hpos ⟨by omega, by omega⟩
    simp [wrap?, hremainder, hindex rfl, wrap]
  | mirroredRepeat =>
    have hperiod : word? (2 * size) = some (2 * size) := word?_eq ⟨by omega, by omega⟩
    have hdivisor : IsWord (2 * size) := ⟨by omega, by omega⟩
    have hremainder := wordRemainder?_eq (v := v) (by omega) hdivisor
    have hnonneg := Int.emod_nonneg v (b := 2 * size) (by omega)
    have hlt := Int.emod_lt_of_pos v (b := 2 * size) (by omega)
    have hindex := hindex rfl
    unfold wrap? wrap
    simp only [hperiod, hremainder, Option.bind_eq_bind, Option.bind_some]
    by_cases hrising : v % (2 * size) < size
    · rw [if_pos hrising] at hindex ⊢
      rw [if_pos hrising, hindex]
      rfl
    · have hedge : word? (2 * size - 1) = some (2 * size - 1) := word?_eq ⟨by omega, by omega⟩
      have hback : word? (2 * size - 1 - v % (2 * size)) = some (2 * size - 1 - v % (2 * size)) :=
        word?_eq ⟨by omega, by omega⟩
      rw [if_neg hrising] at hindex ⊢
      rw [if_neg hrising, hedge, Option.bind_some, hback, Option.bind_some, hindex]
      rfl
  | mirrorClampToEdge =>
    have hindex := hindex rfl
    unfold wrap? wrap
    by_cases hv : 0 ≤ v
    · simp only [if_pos hv] at hindex ⊢
      simp only [hlast, Option.bind_eq_bind, Option.bind_some, hindex, Option.pure_def]
    · have hnext : word? (1 + v) = some (1 + v) := word?_eq ⟨by omega, by omega⟩
      have hback : word? (-(1 + v)) = some (-(1 + v)) := word?_eq ⟨by omega, by omega⟩
      simp only [if_neg hv] at hindex ⊢
      simp only [hnext, hback, hlast, Option.bind_eq_bind, Option.bind_some, hindex,
        Option.pure_def]

/-! ## Which index -/

/-- Only a border leaves coordinates without an index. -/
theorem wrap_eq_none_iff :
    mode.wrap size v = none ↔ mode = .clampToBorder ∧ ¬ (0 ≤ v ∧ v < size) := by
  cases mode <;> simp [wrap]

/-- Coordinates inside the axis are indices already. -/
theorem wrap_of_inside (hlow : 0 ≤ v) (hhigh : v < size) : mode.wrap size v = some v := by
  cases mode with
  | clampToEdge =>
    have hsame : max 0 (min v (size - 1)) = v := by omega
    exact congrArg some hsame
  | clampToBorder => exact if_pos ⟨hlow, hhigh⟩
  | wrapAround => exact congrArg some (Int.emod_eq_of_lt hlow hhigh)
  | mirroredRepeat =>
    have hsame : v % (2 * size) = v := Int.emod_eq_of_lt hlow (by omega)
    simp only [wrap, hsame, if_pos hhigh]
  | mirrorClampToEdge =>
    have hsame : min v (size - 1) = v := by omega
    simp only [wrap, if_pos hlow, hsame]

/-! ## Periods, symmetry and order -/

/-- Repeating has the size as its period. -/
theorem wrapAround_add_mul (size v k : Int) :
    wrapAround.wrap size (v + k * size) = wrapAround.wrap size v :=
  congrArg some (Int.add_mul_emod_self_right v k size)

/-- Mirrored repeating has twice the size as its period. -/
theorem mirroredRepeat_add_mul (size v k : Int) :
    mirroredRepeat.wrap size (v + 2 * k * size) = mirroredRepeat.wrap size v := by
  have hshift : v + 2 * k * size = v + k * (2 * size) := by rw [Int.mul_comm 2 k, Int.mul_assoc]
  simp only [wrap, hshift, Int.add_mul_emod_self_right]

/-- Reflection at the edge before zero reflects the remainder. -/
theorem neg_one_sub_emod {n : Int} (hn : 0 < n) (v : Int) : (-1 - v) % n = n - 1 - v % n := by
  have hlow := Int.emod_nonneg v (Int.ne_of_gt hn)
  have hhigh := Int.emod_lt_of_pos v hn
  have hsplit : -1 - v = n - 1 - v % n + (-(v / n) - 1) * n := by
    linear_combination Int.emod_add_mul_ediv v n
  rw [hsplit, Int.add_mul_emod_self_right]
  exact Int.emod_eq_of_lt (by omega) (by omega)

/-- Mirrored repeating shows the same to both sides of an edge. -/
theorem mirroredRepeat_reflect (hpos : 1 ≤ size) (v : Int) :
    mirroredRepeat.wrap size (-1 - v) = mirroredRepeat.wrap size v := by
  have hreflect := neg_one_sub_emod (n := 2 * size) (by omega) v
  simp only [wrap, hreflect]
  by_cases hrising : v % (2 * size) < size
  · rw [if_neg (by omega), if_pos hrising]
    exact congrArg some (by omega)
  · rw [if_pos (by omega), if_neg hrising]

/-- Mirroring once is clamping, of the reflection below zero. -/
theorem mirrorClampToEdge_eq (hpos : 1 ≤ size) (v : Int) :
    mirrorClampToEdge.wrap size v = clampToEdge.wrap size (if 0 ≤ v then v else -1 - v) := by
  by_cases hv : 0 ≤ v
  · simp only [wrap, if_pos hv]
    exact congrArg some (by omega)
  · simp only [wrap, if_neg hv]
    exact congrArg some (by omega)

/-- Clamping keeps the order. -/
theorem clampToEdge_mono {w : Int} (hle : v ≤ w) : ∃ i j, clampToEdge.wrap size v = some i ∧
    clampToEdge.wrap size w = some j ∧ i ≤ j :=
  ⟨_, _, rfl, rfl, by omega⟩

end

/-- **The laws of wrapping.**  For every coordinate of 64 bits no step overflows, there is
an index unless the coordinate is outside a border, the index lies in the axis, and a
coordinate in the axis is its own index.  Repeating is periodic, mirrored repeating is
periodic and symmetric, mirroring once is clamping up to a reflection, and clamping keeps
the order. -/
theorem wrap_laws {size : Int} (hpos : 1 ≤ size) (hsize : size ≤ 2 ^ 31 - 1) :
    (∀ (mode : AddressMode) (v : Int), IsWord v →
      mode.wrap? size v = some (mode.wrap size v) ∧
      (mode.wrap size v = none ↔ mode = .clampToBorder ∧ ¬ (0 ≤ v ∧ v < size)) ∧
      (∀ index, mode.wrap size v = some index → 0 ≤ index ∧ index < size) ∧
      (0 ≤ v → v < size → mode.wrap size v = some v)) ∧
    (∀ v k, wrapAround.wrap size (v + k * size) = wrapAround.wrap size v) ∧
    (∀ v k, mirroredRepeat.wrap size (v + 2 * k * size) = mirroredRepeat.wrap size v) ∧
    (∀ v, mirroredRepeat.wrap size (-1 - v) = mirroredRepeat.wrap size v) ∧
    (∀ v, 0 ≤ v → mirrorClampToEdge.wrap size v = clampToEdge.wrap size v) ∧
    (∀ v, v < 0 → mirrorClampToEdge.wrap size v = clampToEdge.wrap size (-1 - v)) ∧
    (∀ v w, v ≤ w → ∃ i j, clampToEdge.wrap size v = some i ∧
      clampToEdge.wrap size w = some j ∧ i ≤ j) := by
  refine ⟨fun mode v hv => ⟨wrap?_eq hpos hsize hv, wrap_eq_none_iff,
      fun index => wrap_range (by omega), wrap_of_inside⟩,
    fun v k => wrapAround_add_mul size v k, fun v k => mirroredRepeat_add_mul size v k,
    mirroredRepeat_reflect hpos, fun v hv => ?_, fun v hv => ?_, fun v w => clampToEdge_mono⟩
  · rw [mirrorClampToEdge_eq hpos, if_pos hv]
  · rw [mirrorClampToEdge_eq hpos, if_neg (by omega)]

/-- The least coordinate on the longest axis, whose reflection is the greatest one. -/
theorem wrap_laws_least : (1 : Int) ≤ 2 ^ 31 - 1 ∧ IsWord (-(2 ^ 63)) ∧
    mirrorClampToEdge.wrap? (2 ^ 31 - 1) (-(2 ^ 63)) = some (some (2 ^ 31 - 2)) ∧
    mirroredRepeat.wrap? (2 ^ 31 - 1) (-(2 ^ 63))
      = some (mirroredRepeat.wrap (2 ^ 31 - 1) (2 ^ 63 - 1)) := by
  have hword : IsWord (-(2 ^ 63)) := by decide
  have hlongest : (1 : Int) ≤ 2 ^ 31 - 1 := by decide
  obtain ⟨hwrap, -, -, hreflect, -, -, -⟩ := wrap_laws hlongest (Int.le_refl _)
  refine ⟨hlongest, hword, (hwrap .mirrorClampToEdge _ hword).1.trans (by decide), ?_⟩
  rw [(hwrap .mirroredRepeat _ hword).1, ← hreflect]
  rfl

end AddressMode

end PixelPipeline
