import PixelPipeline.Color
import PixelPipeline.Texture.Wrap

/-!
# Separable filtering

A coordinate on an axis is split into the texel at or before it and the
fraction beyond that texel's centre.  A filter takes a fixed row of taps around
that texel along each axis; every tap goes on to the next axis, the innermost
ones fetch a texel, and the taps of an axis are combined with its fraction.
Taps outside a border are the border colour and fetch nothing.

Fetching may fail and may have effects, so `filter` works in any monad and the
order of fetches is part of its meaning: the outermost axis varies slowest.
-/

namespace PixelPipeline

/-- A coordinate on one axis. -/
structure AxisCoord where
  /-- The texel whose centre lies at or before the coordinate. -/
  block : Int
  /-- How far beyond that centre the coordinate lies, in texels. -/
  frac : Binary32
  /-- The number of texels, as a signed 32-bit word. -/
  size : Int
  mode : AddressMode

namespace AxisCoord

/-- Splits a coordinate that runs from zero to one over `size` texels.  Without
a finite position there is no fraction. -/
def ofCoord (coord : Binary32) (size : Nat) (mode : AddressMode) : AxisCoord :=
  let position := coord * Binary32.ofNat size - Binary32.half
  let whole := Binary32.floor position
  { block := Binary32.toInt64 whole
    frac := if position.isFinite then position - whole else Binary32.zero
    size := Int.bmod size (2 ^ 32)
    mode }

/-- The coordinate of a tap, kept inside the 64-bit range. -/
def tap (c : AxisCoord) (offset : Int) : Int :=
  max (-(2 ^ 63)) (min (c.block + offset) (2 ^ 63 - 1))

/-- The texel index of a tap; absent outside a border. -/
def tapIndex? (c : AxisCoord) (offset : Int) : Option Int := c.mode.wrap c.size (c.tap offset)

end AxisCoord

/-- The point between two values, by the fraction. -/
def lerp (v w frac : Binary32) : Binary32 := v + (w - v) * frac

/-- The cubic through the middle two of four values whose end slopes are the
differences of the outer pairs. -/
def hermite (a b c d frac : Binary32) : Binary32 :=
  let two := Binary32.ofNat 2
  let three := Binary32.ofNat 3
  let m := b - a
  let n := d - c
  let f3 := b * two + m - c * two + n
  let f2 := b * (-three) - m * two + c * three - n + f3 * frac
  let f1 := m + f2 * frac
  b + f1 * frac

namespace FilterMode

/-- The taps along an axis, relative to the texel of the coordinate. -/
def offsets : FilterMode → List Int
  | .nearest => [0]
  | .linear => [0, 1]
  | .cubic => [-1, 0, 1, 2]

/-- Combines the taps of an axis. -/
def combine (mode : FilterMode) (frac : Binary32) (taps : List Color) : Color :=
  match mode, taps with
  | .nearest, [v] => v
  | .linear, [v, w] => Vector.ofFn fun i => lerp (v.get i) (w.get i) frac
  | .cubic, [u, v, w, x] =>
    Vector.ofFn fun i => hermite (u.get i) (v.get i) (w.get i) (x.get i) frac
  | _, _ => Color.transparent

end FilterMode

/-- Filters along the axes, outermost first.  `chosen` are the indices on the
axes before these, and `fetch` receives one index per axis. -/
def filter {m : Type → Type} [Monad m] (mode : FilterMode) (border : Color)
    (fetch : List Int → m Color) : (axes : List AxisCoord) → (chosen : List Int) → m Color
  | [], chosen => fetch chosen
  | axis :: inner, chosen => do
    let taps ← mode.offsets.mapM fun offset =>
      match axis.tapIndex? offset with
      | some index => filter mode border fetch inner (chosen ++ [index])
      | none => pure border
    return mode.combine axis.frac taps

end PixelPipeline
