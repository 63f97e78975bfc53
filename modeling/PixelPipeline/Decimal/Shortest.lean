import PixelPipeline.Power

/-!
# The shortest decimal that reads back

A binary floating-point number `m * 2 ^ q` stands for every real that rounds to
it.  Its decimal text is taken from that interval: `shortest` tries one
significant digit, then two, and so on, and stops at the first grid of decimals
with a point inside the interval.  If some point of a grid lies in the interval
then one of the value's two neighbours on that grid does, so only those two are
tested, in exact natural-number arithmetic.
-/

namespace PixelPipeline.Decimal

/-- A positive decimal `digits * 10 ^ exponent`. -/
structure Scientific where
  digits : Nat
  exponent : Int
  deriving Repr, DecidableEq

/-- A positive binary number `value / scale` together with the ends of the
interval of reals that round to it, over the same denominator. -/
structure RoundingInterval where
  value : Nat
  low : Nat
  high : Nat
  scale : Nat
  /-- Whether the two ends themselves round to the value. -/
  closed : Bool
  deriving Repr, DecidableEq

namespace RoundingInterval

/-- The interval of `m * 2 ^ q`.  Quarters of the last place are whole numbers
here.  Below a power of two the spacing halves, so the lower end is then only a
quarter away. -/
def ofBinary (m : Nat) (q : Int) (atPowerOfTwo : Bool) : RoundingInterval :=
  let up := 2 ^ (q - 2).toNat
  { value := 4 * m * up
    low := (4 * m - (if atPowerOfTwo then 1 else 2)) * up
    high := (4 * m + 2) * up
    scale := 2 ^ (2 - q).toNat
    closed := m % 2 == 0 }

/-- Whether the decimal lies in the interval. -/
def holds (i : RoundingInterval) (d : Scientific) : Bool :=
  let point := d.digits * 10 ^ d.exponent.toNat * i.scale
  let unit := 10 ^ (-d.exponent).toNat
  if i.closed then i.low * unit ≤ point && point ≤ i.high * unit
  else i.low * unit < point && point < i.high * unit

/-- The greatest multiple of `10 ^ exponent` that is at most the value, in that
unit. -/
def floorAt (i : RoundingInterval) (exponent : Int) : Nat :=
  i.value * 10 ^ (-exponent).toNat / (i.scale * 10 ^ exponent.toNat)

/-- Whether the upper neighbour on the grid is at least as near as the lower. -/
def upperIsNearer (i : RoundingInterval) (lower : Nat) (exponent : Int) : Bool :=
  (2 * lower + 1) * (i.scale * 10 ^ exponent.toNat)
    ≤ 2 * i.value * 10 ^ (-exponent).toNat

/-- The grid point with spacing `10 ^ exponent` in the interval that is nearest
to the value, an exact tie upward. -/
def nearestOnGrid? (i : RoundingInterval) (exponent : Int) : Option Scientific :=
  let lower := i.floorAt exponent
  let below : Scientific := ⟨lower, exponent⟩
  let above : Scientific := ⟨lower + 1, exponent⟩
  match i.holds below, i.holds above with
  | true, true => some (if i.upperIsNearer lower exponent then above else below)
  | true, false => some below
  | false, true => some above
  | false, false => none

/-- The least `e` with `value < 10 ^ e`, looked for upward from `start` for at
most `fuel` steps. -/
def decimalWidth (i : RoundingInterval) (start : Int) : Nat → Int
  | 0 => start
  | fuel + 1 =>
    if i.value * 10 ^ (-start).toNat < i.scale * 10 ^ start.toNat then start
    else i.decimalWidth (start + 1) fuel

/-- The first grid with a point in the interval, from spacing
`10 ^ (width - 1)` downward for at most `fuel` grids. -/
def firstGrid (i : RoundingInterval) (width : Int) : (fuel : Nat) → (count : Nat) → Scientific
  | 0, count => ⟨i.floorAt (width - count), width - count⟩
  | fuel + 1, count =>
    match i.nearestOnGrid? (width - count) with
    | some d => d
    | none => i.firstGrid width fuel (count + 1)

end RoundingInterval

/-- The same decimal with no trailing zero in its digits. -/
def Scientific.trim (d : Scientific) : Nat → Scientific
  | 0 => d
  | fuel + 1 =>
    if d.digits % 10 = 0 then Scientific.trim ⟨d.digits / 10, d.exponent + 1⟩ fuel else d

/-- The shortest decimal that reads back as the positive, finite binary32
number with the given biased exponent and fraction fields. -/
def shortestBinary32 (exponent fraction : Nat) : Scientific :=
  let m := if exponent = 0 then fraction else 2 ^ 23 + fraction
  let q : Int := (max exponent 1 : Nat) - 150
  let i := RoundingInterval.ofBinary m q (fraction = 0 && 1 < exponent)
  (i.firstGrid (i.decimalWidth (-46) 90) 17 1).trim 20

end PixelPipeline.Decimal
