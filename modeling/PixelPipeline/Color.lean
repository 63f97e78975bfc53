import PixelPipeline.Binary32.Basic

/-!
# Colours

A colour is four floats in the order red, green, blue, alpha.  The channels
carry no range of their own: formats and the pipeline clamp where they must.
-/

namespace PixelPipeline

/-- Red, green, blue and alpha. -/
abbrev Color : Type := Vector Binary32 4

namespace Color

/-- The index of the red channel. -/
def redChannel : Fin 4 := 0

/-- The index of the green channel. -/
def greenChannel : Fin 4 := 1

/-- The index of the blue channel. -/
def blueChannel : Fin 4 := 2

/-- The index of the alpha channel. -/
def alphaChannel : Fin 4 := 3

/-- A colour from its channels. -/
def mk (r g b a : Binary32) : Color := #v[r, g, b, a]

/-- All channels zero. -/
def transparent : Color := Vector.replicate 4 Binary32.zero

/-- The value of absent channels: black, and opaque. -/
def opaqueBlack : Color := mk Binary32.zero Binary32.zero Binary32.zero Binary32.one

/-- The alpha channel. -/
def alpha (color : Color) : Binary32 := color.get alphaChannel

/-- Every channel clamped to the unit interval. -/
def clampUnit (c : Color) : Color := c.map Binary32.clampUnit

/-- The channels that `enabled` selects come from `new`, the others from
`old`. -/
def select (enabled : Vector Bool 4) (old new : Color) : Color :=
  Vector.ofFn fun i => if enabled.get i then new.get i else old.get i

/-- A channel of a colour given by its channels. -/
@[simp] theorem get_ofFn {α : Type} (f : Fin 4 → α) (i : Fin 4) :
    (Vector.ofFn f).get i = f i :=
  Vector.getElem_ofFn i.isLt

/-- A channel is the new one where it is enabled. -/
@[simp] theorem get_select (enabled : Vector Bool 4) (old new : Color) (i : Fin 4) :
    (select enabled old new).get i = if enabled.get i then new.get i else old.get i :=
  get_ofFn ..

/-- The channelwise sum. -/
def add (c d : Color) : Color := Vector.zipWith (· + ·) c d

/-- The channelwise product with one factor on the right. -/
def scale (c : Color) (k : Binary32) : Color := c.map (· * k)

/-- The channelwise quotient. -/
def divide (c : Color) (k : Binary32) : Color := c.map (· / k)

end Color

end PixelPipeline
