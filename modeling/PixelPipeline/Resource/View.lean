import PixelPipeline.Color
import PixelPipeline.Handle
import PixelPipeline.Image.Storage

/-!
# Views and surfaces

Both refer to an image by handle and own nothing.  A view is sampled: it
selects levels and layers, may read the bytes in another format of the same
size, and rearranges the fetched channels.  A surface is drawn to: one level of
one layer, with window rows counted from the bottom.
-/

namespace PixelPipeline

/-- Where an output channel of a view comes from. -/
inductive Swizzle where
  | r
  | g
  | b
  | a
  | zero
  | one
  deriving DecidableEq, Repr, Inhabited

instance : Named Swizzle where
  all := [.r, .g, .b, .a, .zero, .one]
  name
    | .r => "R"
    | .g => "G"
    | .b => "B"
    | .a => "A"
    | .zero => "Zero"
    | .one => "One"

namespace Swizzle

/-- Every channel from itself. -/
def identity : Vector Swizzle 4 := #v[.r, .g, .b, .a]

/-- The selected channel, clamped to the unit interval, or a constant. -/
def select (s : Swizzle) (texel : Color) : Binary32 :=
  match s with
  | .r => Binary32.clampUnit (texel.get Color.redChannel)
  | .g => Binary32.clampUnit (texel.get Color.greenChannel)
  | .b => Binary32.clampUnit (texel.get Color.blueChannel)
  | .a => Binary32.clampUnit (texel.get Color.alphaChannel)
  | .zero => Binary32.zero
  | .one => Binary32.one

/-- Four selections at once. -/
def apply (swizzle : Vector Swizzle 4) (texel : Color) : Color :=
  swizzle.map fun s => s.select texel

end Swizzle

/-- What a view is to show; absent counts reach to the end of the image. -/
structure ViewDesc where
  format : Option Format
  baseLevel : Nat
  levelCount : Option Nat
  baseLayer : Nat
  layerCount : Option Nat
  swizzle : Vector Swizzle 4
  deriving DecidableEq, Repr

/-- The whole image, unchanged. -/
instance : Inhabited ViewDesc := ⟨⟨none, 0, none, 0, none, Swizzle.identity⟩⟩

/-- A part of an image to sample. -/
structure View where
  image : Handle .image
  format : Format
  minLevel : Nat
  numLevels : Nat
  minLayer : Nat
  numLayers : Nat
  swizzle : Vector Swizzle 4
  deriving DecidableEq, Repr

/-- The sum of two 32-bit words, unless it exceeds them. -/
def wordSum? (a b : Nat) : Option Nat := if a + b < 2 ^ 32 then some (a + b) else none

/-- Whether a range is not empty and ends inside the total.  A range whose end
is not a word does not wrap around. -/
def rangeFits (base count total : Nat) : Bool :=
  0 < count && (wordSum? base count).any fun last => last ≤ total

namespace View

/-- The view of an image that a description asks for. -/
def create (id : Handle .image) (image : Image) (d : ViewDesc) : Except Fault View := do
  let source := image.desc
  let numLevels := d.levelCount.getD (source.levels - d.baseLevel)
  let numLayers := d.layerCount.getD (source.layers - d.baseLayer)
  if !rangeFits d.baseLevel numLevels source.levels then
    throw (.invalidImage (.viewLevels numLevels d.baseLevel source.levels))
  if !rangeFits d.baseLayer numLayers source.layers then
    throw (.invalidImage (.viewLayers numLayers d.baseLayer source.layers))
  let format := d.format.getD source.format
  if format.stride ≠ source.format.stride ∨ format.isCompressed ≠ source.format.isCompressed then
    throw (.incompatibleView source.format format)
  if !source.imageType.supports format then
    throw (.unsupportedFetch format source.imageType)
  return ⟨id, format, d.baseLevel, numLevels, d.baseLayer, numLayers, d.swizzle⟩

end View

/-- A level of a layer to draw to. -/
structure Surface where
  image : Handle .image
  format : Format
  level : Nat
  layer : Nat
  width : Nat
  height : Nat
  deriving DecidableEq, Repr

namespace Surface

/-- The surface of a level and layer of an image. -/
def create (id : Handle .image) (image : Image) (level layer : Nat) : Except Fault Surface :=
  if image.desc.levels ≤ level ∨ image.desc.layers ≤ layer then
    .error (.invalidImage (.surfaceOutside level layer))
  else
    let e := image.extent level
    .ok ⟨id, image.desc.format, level, layer, e.x, e.y⟩

/-- The texel column and row at a window position: window rows count upward,
texel rows downward. -/
def texelCoord? (s : Surface) (x y : Nat) : Option (Nat × Nat) :=
  if x < s.width ∧ y < s.height then some (x, s.height - 1 - y) else none

/-- The texel at a window position. -/
def texelIndex? (s : Surface) (x y : Nat) : Option TexelIndex :=
  (s.texelCoord? x y).map fun p => ⟨s.level, s.layer, p.1, p.2, 0⟩

end Surface

end PixelPipeline
