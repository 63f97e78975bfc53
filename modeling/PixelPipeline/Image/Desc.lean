import PixelPipeline.Image.Format

/-!
# Image descriptions

A description fixes the type, format, extents, level count and layer count of an
image.  Level `n` has every extent halved `n` times, but at least one; only
three-dimensional images have depth.
-/

namespace PixelPipeline

/-- The dimensions of an image. -/
inductive ImageType where
  | d1
  | d1Array
  | d2
  | d2Array
  | d3
  deriving DecidableEq, Repr, Inhabited

instance : Named ImageType where
  all := [.d1, .d1Array, .d2, .d2Array, .d3]
  name
    | .d1 => "D1"
    | .d1Array => "D1Array"
    | .d2 => "D2"
    | .d2Array => "D2Array"
    | .d3 => "D3"

namespace ImageType

/-- How many axes a coordinate has. -/
def axes : ImageType → Nat
  | .d1 | .d1Array => 1
  | .d2 | .d2Array => 2
  | .d3 => 3

/-- Whether there may be more than one layer. -/
def isArray : ImageType → Bool
  | .d1Array | .d2Array => true
  | _ => false

/-- The array type of the same dimensions; three-dimensional images have none. -/
def toArray : ImageType → ImageType
  | .d1 | .d1Array => .d1Array
  | .d2 | .d2Array => .d2Array
  | .d3 => .d3

/-- Whether images of the type can be stored in, and sampled as, the format:
blocks need exactly two dimensions. -/
def supports (t : ImageType) (f : Format) : Bool :=
  !f.isCompressed || t == .d2 || t == .d2Array

end ImageType

/-- Width, height and depth of a level. -/
structure Extent where
  x : Nat
  y : Nat
  z : Nat
  deriving DecidableEq, Repr

/-- The position of a texel. -/
structure TexelIndex where
  level : Nat
  layer : Nat
  x : Nat
  y : Nat
  z : Nat
  deriving DecidableEq, Repr

/-- What an image is to be; every number is a 32-bit word. -/
structure ImageDesc where
  imageType : ImageType
  format : Format
  width : Nat
  height : Nat
  depth : Nat
  levels : Nat
  layers : Nat
  deriving DecidableEq, Repr

namespace ImageDesc

/-- A one-dimensional image with one level and one layer. -/
def d1 (format : Format) (width : Nat) : ImageDesc :=
  ⟨.d1, format, width, 1, 1, 1, 1⟩

/-- A two-dimensional image with one level and one layer. -/
def d2 (format : Format) (width height : Nat) : ImageDesc :=
  ⟨.d2, format, width, height, 1, 1, 1⟩

/-- A three-dimensional image with one level and one layer. -/
def d3 (format : Format) (width height depth : Nat) : ImageDesc :=
  ⟨.d3, format, width, height, depth, 1, 1⟩

/-- The array image with this many layers. -/
def withLayers (d : ImageDesc) (layers : Nat) : ImageDesc :=
  { d with imageType := d.imageType.toArray, layers := layers }

/-- The image with this many levels. -/
def withLevels (d : ImageDesc) (levels : Nat) : ImageDesc := { d with levels := levels }

/-- The number of levels down to the one with all extents one. -/
def maxLevels (d : ImageDesc) : Nat := (max (max d.width d.height) d.depth).log2 + 1

/-- The extent of a level. -/
def levelExtent (d : ImageDesc) (level : Nat) : Extent :=
  let shrink (size : Nat) := max (size >>> level) 1
  ⟨shrink d.width, shrink d.height, if d.imageType = .d3 then shrink d.depth else 1⟩

/-- The bytes of one layer of a level. -/
def layerSize (d : ImageDesc) (level : Nat) : Nat :=
  let e := d.levelExtent level
  d.format.regionSize e.x e.y e.z

/-- The bytes of all layers of a level. -/
def levelSize (d : ImageDesc) (level : Nat) : Nat := d.layerSize level * d.layers

/-- Where a level starts, the levels lying one behind the other. -/
def levelStart (d : ImageDesc) : Nat → Nat
  | 0 => 0
  | level + 1 => d.levelStart level + d.levelSize level

/-- The bytes of all levels. -/
def byteSize (d : ImageDesc) : Nat := d.levelStart d.levels

/-- The description in words. -/
def text (d : ImageDesc) : String :=
  "ImageDesc \x7b image_type: " ++ Named.name d.imageType ++ ", format: " ++ Named.name d.format
    ++ s!", width: {d.width}, height: {d.height}, depth: {d.depth}"
    ++ s!", levels: {d.levels}, layers: {d.layers} " ++ "\x7d"

end ImageDesc

end PixelPipeline
