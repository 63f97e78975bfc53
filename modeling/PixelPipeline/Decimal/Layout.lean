import PixelPipeline.Binary32.Basic
import PixelPipeline.Decimal.Shortest

/-!
# Writing floats

A `FloatLayout` says how the digits of a float are set out: which decimal
exponents are written in full, and the words for the values without digits.
The digits themselves are always the shortest that read back.
-/

namespace PixelPipeline.Decimal

/-- How a float is written once its digits are chosen. -/
structure FloatLayout where
  /-- The least power of ten written without an exponent. -/
  positionalFrom : Int
  /-- The least power of ten that is again written with an exponent. -/
  positionalBelow : Int
  notANumber : String
  infinity : String
  deriving Repr

/-- A run of `n` zeros. -/
def zeros (n : Nat) : String := String.ofList (List.replicate n '0')

/-- The digits with a point after the first `split`, padded with zeros on either
side so that at least one digit stands before and after the point. -/
def pointAt (digits : String) (split : Int) : String :=
  if split ≤ 0 then "0." ++ zeros (-split).toNat ++ digits
  else
    let whole := split.toNat
    if digits.length ≤ whole then digits ++ zeros (whole - digits.length) ++ ".0"
    else (digits.take whole).toString ++ "." ++ (digits.drop whole).toString

/-- One digit, the point and the others if there are any, and the exponent. -/
def withExponent (digits : String) (power : Int) : String :=
  let mantissa :=
    if digits.length ≤ 1 then digits
    else (digits.take 1).toString ++ "." ++ (digits.drop 1).toString
  mantissa ++ "e" ++ toString power

namespace FloatLayout

/-- The text of a positive decimal. -/
def writePositive (layout : FloatLayout) (d : Scientific) : String :=
  let digits := toString d.digits
  let power : Int := d.exponent + digits.length - 1
  if layout.positionalFrom ≤ power ∧ power < layout.positionalBelow then
    pointAt digits (power + 1)
  else withExponent digits power

/-- The text of a float.  A negative zero keeps its sign, a NaN has none. -/
def write (layout : FloatLayout) (x : Binary32) : String :=
  if x.isNaN then layout.notANumber
  else
    let bits := x.bits.toNat % 2 ^ 31
    let magnitude :=
      if x.isInfinite then layout.infinity
      else if bits = 0 then "0.0"
      else layout.writePositive (shortestBinary32 (bits / 2 ^ 23) (bits % 2 ^ 23))
    if Binary32.signBit x then "-" ++ magnitude else magnitude

end FloatLayout

end PixelPipeline.Decimal
