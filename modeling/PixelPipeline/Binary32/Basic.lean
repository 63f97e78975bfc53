import PixelPipeline.Power

/-!
# Single-precision numbers of the pixel pipeline

Every colour, depth and coordinate is a `Binary32`: an IEEE binary32 number
given by its bit pattern.  A NaN has a sign and a payload, and both survive
every move from one place to another.  Core supplies the rounded operations and
the order of numbers; this module says what becomes of a NaN and adds the
operations whose choice among several conventions shows in the output.

* `+ - * /` hand on the first NaN operand, made quiet; an invalid operation on
  numbers gives one fixed quiet NaN.
* `larger` and `smaller` ignore a NaN operand and take the second of two equal
  operands, which shows when these are zeros of different sign.
* `clamp` keeps NaN, and keeps a negative zero inside an interval that starts
  at zero.
* `floor` and `roundHalfAway` are exact: a float of magnitude `2 ^ 23` or more
  is already integral.
* The conversions to integers truncate toward zero and stop at the bounds of
  the target; NaN becomes zero.
-/

namespace PixelPipeline

/-- A single-precision number.  Two of them are equal when their bits are; `eq`,
`le` and `lt` compare the numbers instead. -/
structure Binary32 where
  bits : UInt32
  deriving DecidableEq, Repr

namespace Binary32

/-- Zero, with the sign bit clear. -/
def zero : Binary32 := ⟨0x00000000⟩

/-- The unit of the normalised formats. -/
def one : Binary32 := ⟨0x3f800000⟩

/-- One half, the distance from a texel's edge to its centre. -/
def half : Binary32 := ⟨0x3f000000⟩

/-- What an invalid operation such as `0 * ∞` gives. -/
def invalid : Binary32 := ⟨0xffc00000⟩

instance : Inhabited Binary32 := ⟨zero⟩

/-- The bits without the sign. -/
def magnitudeBits (x : Binary32) : UInt32 := x.bits &&& 0x7fffffff

/-- All exponent bits set and a fraction. -/
def isNaN (x : Binary32) : Bool := 0x7f800000 < x.magnitudeBits

/-- All exponent bits set and no fraction. -/
def isInfinite (x : Binary32) : Bool := x.magnitudeBits == 0x7f800000

/-- Neither infinite nor NaN. -/
def isFinite (x : Binary32) : Bool := x.magnitudeBits < 0x7f800000

/-- The sign bit, also of zeros and NaNs. -/
def signBit (x : Binary32) : Bool := x.bits >>> 31 != 0

/-- The sign cleared. -/
def abs (x : Binary32) : Binary32 := ⟨x.magnitudeBits⟩

/-- The sign flipped. -/
instance : Neg Binary32 := ⟨fun x => ⟨x.bits ^^^ 0x80000000⟩⟩

/-- A NaN in its quiet form. -/
def quiet (x : Binary32) : Binary32 := ⟨x.bits ||| 0x00400000⟩

/-! ## Arithmetic -/

/-- The number with which core computes. -/
def toFloat32 (x : Binary32) : Float32 := Float32.ofBits x.bits

/-- A computed number; computing cannot tell one NaN from another. -/
def ofFloat32 (v : Float32) : Binary32 := if v.isNaN then invalid else ⟨v.toBits⟩

/-- An operation on numbers, extended to NaNs. -/
def lift (op : Float32 → Float32 → Float32) (x y : Binary32) : Binary32 :=
  if x.isNaN then x.quiet
  else if y.isNaN then y.quiet
  else ofFloat32 (op x.toFloat32 y.toFloat32)

instance : Add Binary32 := ⟨lift (· + ·)⟩
instance : Sub Binary32 := ⟨lift (· - ·)⟩
instance : Mul Binary32 := ⟨lift (· * ·)⟩
instance : Div Binary32 := ⟨lift (· / ·)⟩

/-- Equality of numbers as a Boolean: the two zeros are equal, and no NaN is
equal to anything. -/
def eq (x y : Binary32) : Bool := x.toFloat32 == y.toFloat32

/-- The order of numbers as a Boolean; false when an operand is NaN. -/
def le (x y : Binary32) : Bool := Float32.le x.toFloat32 y.toFloat32

/-- Strict order as a Boolean; false when an operand is NaN. -/
def lt (x y : Binary32) : Bool := Float32.lt x.toFloat32 y.toFloat32

/-- The larger operand.  A NaN operand is ignored and a tie gives `y`. -/
def larger (x y : Binary32) : Binary32 :=
  if x.isNaN || le x y then y else x

/-- The smaller operand.  A NaN operand is ignored and a tie gives `y`. -/
def smaller (x y : Binary32) : Binary32 :=
  if x.isNaN || le y x then y else x

/-- Restricts `x` to the interval from `lo` to `hi`.  Both comparisons fail on
NaN, which is therefore kept. -/
def clamp (lo hi x : Binary32) : Binary32 :=
  let raised := if lt x lo then lo else x
  if lt hi raised then hi else raised

/-- The clamp of the normalised colour formats. -/
def clampUnit (x : Binary32) : Binary32 := clamp zero one x

/-- The magnitude with the sign of `x`. -/
def withSignOf (x magnitude : Binary32) : Binary32 :=
  if signBit x then -magnitude else magnitude

/-- Truncation into the unsigned 8-bit range. -/
def toUInt8 (x : Binary32) : UInt8 := x.toFloat32.toUInt8

/-- Truncation into the unsigned 16-bit range. -/
def toUInt16 (x : Binary32) : UInt16 := x.toFloat32.toUInt16

/-- Truncation into the unsigned 32-bit range. -/
def toUInt32 (x : Binary32) : UInt32 := x.toFloat32.toUInt32

/-- Truncation into the unsigned 64-bit range. -/
def toUInt64 (x : Binary32) : UInt64 := x.toFloat32.toUInt64

/-- The least magnitude from which every float is an integer, `2 ^ 23`. -/
def integralFrom : Binary32 := ⟨0x4b000000⟩

/-- Whether `x` has no fraction because it is infinite, NaN or large. -/
def isCoarse (x : Binary32) : Bool := x.isNaN || le integralFrom x.abs

/-- The integral part of a magnitude below `integralFrom`. -/
def integralPart (magnitude : Binary32) : Binary32 := ofFloat32 magnitude.toUInt32.toFloat32

/-- The greatest integer that is at most `x`, as a float. -/
def floor (x : Binary32) : Binary32 :=
  if isCoarse x then x
  else
    let whole := integralPart x.abs
    if signBit x && lt whole x.abs then -(whole + one) else withSignOf x whole

/-- The integer nearest to `x`; a half goes away from zero. -/
def roundHalfAway (x : Binary32) : Binary32 :=
  if isCoarse x then x
  else
    let whole := integralPart x.abs
    withSignOf x (if lt (x.abs - whole) half then whole else whole + one)

/-- Truncation toward zero into the interval from `-low` to `high`; NaN becomes
zero.  The bounds must not exceed the range of 64-bit words. -/
def toIntSaturating (low high : Nat) (x : Binary32) : Int :=
  if signBit x then -((min (-x).toUInt64.toNat low : Nat) : Int)
  else ((min x.toUInt64.toNat high : Nat) : Int)

/-- Truncation into the signed 8-bit range. -/
def toInt8 (x : Binary32) : Int := toIntSaturating (2 ^ 7) (2 ^ 7 - 1) x

/-- Truncation into the signed 16-bit range. -/
def toInt16 (x : Binary32) : Int := toIntSaturating (2 ^ 15) (2 ^ 15 - 1) x

/-- Truncation into the signed 32-bit range. -/
def toInt32 (x : Binary32) : Int := toIntSaturating (2 ^ 31) (2 ^ 31 - 1) x

/-- Truncation into the signed 64-bit range. -/
def toInt64 (x : Binary32) : Int := toIntSaturating (2 ^ 63) (2 ^ 63 - 1) x

/-- The float nearest to a natural number below `2 ^ 64`, ties to even. -/
def ofNat (n : Nat) : Binary32 := ofFloat32 n.toUInt64.toFloat32

/-- The float nearest to an integer of magnitude below `2 ^ 64`, ties to even. -/
def ofInt (i : Int) : Binary32 :=
  if i < 0 then -(ofNat i.natAbs) else ofNat i.natAbs

end Binary32

end PixelPipeline
