import PixelPipeline.Binary32.Basic

/-!
# Half-precision interchange

A half-precision channel is sixteen bits: sign, five exponent bits, ten
fraction bits.  Widening is exact.  Narrowing rounds the significand to the
nearest representable one, an exact half to the even neighbour; because the
fields of a half lie next to each other, one sum `base + significand` is the
bit pattern of normal, subnormal and carried-over results alike.  A NaN becomes
a quiet NaN either way, with its sign and the payload bits that both have.
-/

namespace PixelPipeline.Binary16

/-- `value / 2 ^ shift` rounded to the nearest natural number, an exact half to
the even neighbour. -/
def shiftNearestEven (value shift : Nat) : Nat :=
  let quotient := value >>> shift
  let twiceRest := 2 * (value % 2 ^ shift)
  if twiceRest < 2 ^ shift then quotient
  else if twiceRest = 2 ^ shift ∧ quotient % 2 = 0 then quotient
  else quotient + 1

/-- The bits of positive infinity: all exponent bits set. -/
def infinityBits : Nat := 0x7c00

/-- The magnitude bits of the quiet NaN without payload. -/
def quietNaNBits : Nat := 0x7e00

/-- The magnitude bits of the quiet NaN with the payload of a binary32
fraction field, whose lower 13 bits are lost. -/
def nanBits (fraction : Nat) : Nat := quietNaNBits + fraction / 2 ^ 13 % 2 ^ 9

/-- The magnitude bits of a finite binary32 number with the given biased
exponent and fraction field.  A binary32 exponent of 113 is the least that a
normal half can have; below it the significand is shifted further and the
exponent field stays zero. -/
def magnitudeBits (exponent fraction : Nat) : Nat :=
  let significand := if exponent = 0 then fraction else 2 ^ 23 + fraction
  let base := (exponent - 113) * 2 ^ 10
  min infinityBits (base + shiftNearestEven significand (13 + (113 - max exponent 1)))

/-- The nearest half-precision bit pattern of `x`; overflow gives infinity. -/
def ofBinary32 (x : Binary32) : UInt16 :=
  let bits := x.bits.toNat
  let exponent := bits / 2 ^ 23 % 2 ^ 8
  let fraction := bits % 2 ^ 23
  let sign := bits / 2 ^ 31 * 2 ^ 15
  let magnitude :=
    if exponent = 255 then (if fraction = 0 then infinityBits else nanBits fraction)
    else magnitudeBits exponent fraction
  (sign + magnitude).toUInt16

/-- The unit in the last place of the subnormal halves, `2 ^ -24`. -/
def subnormalUnit : Binary32 := ⟨0x33800000⟩

/-- The number that a half-precision bit pattern stands for. -/
def toBinary32 (half : UInt16) : Binary32 :=
  let bits := half.toNat
  let exponent := bits / 2 ^ 10 % 2 ^ 5
  let fraction := bits % 2 ^ 10
  let magnitude :=
    if exponent = 0 then Binary32.ofNat fraction * subnormalUnit
    else
      let wide := if exponent = 31 then 255 else exponent + 112
      ⟨(wide * 2 ^ 23 + fraction * 2 ^ 13).toUInt32⟩
  let signed := if bits < 2 ^ 15 then magnitude else -magnitude
  if signed.isNaN then signed.quiet else signed

end PixelPipeline.Binary16
