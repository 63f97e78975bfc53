import PixelPipeline.Power
import PixelPipeline.Text.Named

/-!
# Storage formats

A format names how one texel, or one block of 4 by 4 texels, lies in memory.
`Format.layout` sorts the formats into six families, and every size and every
conversion is a function of the layout alone:

* *plain* formats hold one to four components of one encoding, one behind the
  other, possibly with red and blue exchanged;
* *packed* formats divide a 16-bit word into bit fields;
* two depth layouts and one stencil layout;
* block formats, which can be decoded but not written texel by texel.
-/

namespace PixelPipeline

/-- The formats in which texels can be stored. -/
inductive Format where
  | r8Unorm
  | r8Snorm
  | r8Uint
  | r8Sint
  | rg8Unorm
  | rg8Snorm
  | rg8Uint
  | rg8Sint
  | rgb8Unorm
  | rgb8Snorm
  | rgb8Uint
  | rgb8Sint
  | bgr8Unorm
  | rgba8Unorm
  | rgba8Snorm
  | rgba8Uint
  | rgba8Sint
  | bgra8Unorm
  | r16Unorm
  | r16Snorm
  | r16Uint
  | r16Sint
  | r16Sfloat
  | rg16Unorm
  | rg16Sfloat
  | rgba16Unorm
  | rgba16Uint
  | rgba16Sfloat
  | r32Uint
  | r32Sint
  | r32Sfloat
  | rg32Sfloat
  | rgb32Sfloat
  | rgba32Uint
  | rgba32Sfloat
  | r4g4b4a4Unorm
  | r5g6b5Unorm
  | b5g6r5Unorm
  | r5g5b5a1Unorm
  | d32Sfloat
  | d24UnormS8Uint
  | s8Uint
  | bc1RgbUnorm
  | bc1RgbaUnorm
  | bc2Unorm
  | bc3Unorm
  | bc4Unorm
  | bc4Snorm
  | bc5Unorm
  | bc5Snorm
  deriving DecidableEq, Repr, Inhabited

instance : Named Format where
  all := [
    .r8Unorm, .r8Snorm, .r8Uint, .r8Sint, .rg8Unorm, .rg8Snorm, .rg8Uint, .rg8Sint,
    .rgb8Unorm, .rgb8Snorm, .rgb8Uint, .rgb8Sint, .bgr8Unorm, .rgba8Unorm, .rgba8Snorm,
    .rgba8Uint, .rgba8Sint, .bgra8Unorm, .r16Unorm, .r16Snorm, .r16Uint, .r16Sint, .r16Sfloat,
    .rg16Unorm, .rg16Sfloat, .rgba16Unorm, .rgba16Uint, .rgba16Sfloat, .r32Uint, .r32Sint,
    .r32Sfloat, .rg32Sfloat, .rgb32Sfloat, .rgba32Uint, .rgba32Sfloat, .r4g4b4a4Unorm,
    .r5g6b5Unorm, .b5g6r5Unorm, .r5g5b5a1Unorm, .d32Sfloat, .d24UnormS8Uint, .s8Uint,
    .bc1RgbUnorm, .bc1RgbaUnorm, .bc2Unorm, .bc3Unorm, .bc4Unorm, .bc4Snorm, .bc5Unorm,
    .bc5Snorm]
  name
    | .r8Unorm => "R8Unorm"
    | .r8Snorm => "R8Snorm"
    | .r8Uint => "R8Uint"
    | .r8Sint => "R8Sint"
    | .rg8Unorm => "Rg8Unorm"
    | .rg8Snorm => "Rg8Snorm"
    | .rg8Uint => "Rg8Uint"
    | .rg8Sint => "Rg8Sint"
    | .rgb8Unorm => "Rgb8Unorm"
    | .rgb8Snorm => "Rgb8Snorm"
    | .rgb8Uint => "Rgb8Uint"
    | .rgb8Sint => "Rgb8Sint"
    | .bgr8Unorm => "Bgr8Unorm"
    | .rgba8Unorm => "Rgba8Unorm"
    | .rgba8Snorm => "Rgba8Snorm"
    | .rgba8Uint => "Rgba8Uint"
    | .rgba8Sint => "Rgba8Sint"
    | .bgra8Unorm => "Bgra8Unorm"
    | .r16Unorm => "R16Unorm"
    | .r16Snorm => "R16Snorm"
    | .r16Uint => "R16Uint"
    | .r16Sint => "R16Sint"
    | .r16Sfloat => "R16Sfloat"
    | .rg16Unorm => "Rg16Unorm"
    | .rg16Sfloat => "Rg16Sfloat"
    | .rgba16Unorm => "Rgba16Unorm"
    | .rgba16Uint => "Rgba16Uint"
    | .rgba16Sfloat => "Rgba16Sfloat"
    | .r32Uint => "R32Uint"
    | .r32Sint => "R32Sint"
    | .r32Sfloat => "R32Sfloat"
    | .rg32Sfloat => "Rg32Sfloat"
    | .rgb32Sfloat => "Rgb32Sfloat"
    | .rgba32Uint => "Rgba32Uint"
    | .rgba32Sfloat => "Rgba32Sfloat"
    | .r4g4b4a4Unorm => "R4g4b4a4Unorm"
    | .r5g6b5Unorm => "R5g6b5Unorm"
    | .b5g6r5Unorm => "B5g6r5Unorm"
    | .r5g5b5a1Unorm => "R5g5b5a1Unorm"
    | .d32Sfloat => "D32Sfloat"
    | .d24UnormS8Uint => "D24UnormS8Uint"
    | .s8Uint => "S8Uint"
    | .bc1RgbUnorm => "Bc1RgbUnorm"
    | .bc1RgbaUnorm => "Bc1RgbaUnorm"
    | .bc2Unorm => "Bc2Unorm"
    | .bc3Unorm => "Bc3Unorm"
    | .bc4Unorm => "Bc4Unorm"
    | .bc4Snorm => "Bc4Snorm"
    | .bc5Unorm => "Bc5Unorm"
    | .bc5Snorm => "Bc5Snorm"

/-- The encoding of one component of a plain format. -/
inductive Component where
  | unorm8
  | snorm8
  | uint8
  | sint8
  | unorm16
  | snorm16
  | uint16
  | sint16
  | sfloat16
  | uint32
  | sint32
  | sfloat32
  deriving DecidableEq, Repr, Inhabited

instance : Named Component where
  all := [.unorm8, .snorm8, .uint8, .sint8, .unorm16, .snorm16, .uint16, .sint16, .sfloat16,
    .uint32, .sint32, .sfloat32]
  name
    | .unorm8 => "Unorm8"
    | .snorm8 => "Snorm8"
    | .uint8 => "Uint8"
    | .sint8 => "Sint8"
    | .unorm16 => "Unorm16"
    | .snorm16 => "Snorm16"
    | .uint16 => "Uint16"
    | .sint16 => "Sint16"
    | .sfloat16 => "Sfloat16"
    | .uint32 => "Uint32"
    | .sint32 => "Sint32"
    | .sfloat32 => "Sfloat32"

/-- The bytes of one component. -/
def Component.size : Component → Nat
  | .unorm8 | .snorm8 | .uint8 | .sint8 => 1
  | .unorm16 | .snorm16 | .uint16 | .sint16 | .sfloat16 => 2
  | .uint32 | .sint32 | .sfloat32 => 4

/-- Where a channel of a packed format lies in its word. -/
structure BitField where
  shift : Nat
  /-- The number of bits; zero means that the format lacks the channel. -/
  width : Nat
  deriving DecidableEq, Repr, Inhabited

/-- The families of block compression. -/
inductive BlockKind where
  | bc1 (alpha : Bool)
  | bc2
  | bc3
  | bc4 (signed : Bool)
  | bc5 (signed : Bool)
  deriving DecidableEq, Repr

/-- The bytes of one block. -/
def BlockKind.size : BlockKind → Nat
  | .bc1 _ | .bc4 _ => 8
  | .bc2 | .bc3 | .bc5 _ => 16

/-- How a texel or block lies in memory. -/
inductive Layout where
  /-- Components in order; `bgr` exchanges red and blue. -/
  | plain (component : Component) (channels : Nat) (bgr : Bool)
  /-- Bit fields for red, green, blue and alpha. -/
  | packed (fields : Vector BitField 4)
  | depth32
  /-- Depth in the low 24 bits, stencil in the high 8. -/
  | depth24Stencil8
  | stencil8
  | block (kind : BlockKind)
  deriving DecidableEq, Repr

namespace Format

/-- The layout of a format. -/
def layout : Format → Layout
  | .r8Unorm => .plain .unorm8 1 false
  | .r8Snorm => .plain .snorm8 1 false
  | .r8Uint => .plain .uint8 1 false
  | .r8Sint => .plain .sint8 1 false
  | .rg8Unorm => .plain .unorm8 2 false
  | .rg8Snorm => .plain .snorm8 2 false
  | .rg8Uint => .plain .uint8 2 false
  | .rg8Sint => .plain .sint8 2 false
  | .rgb8Unorm => .plain .unorm8 3 false
  | .rgb8Snorm => .plain .snorm8 3 false
  | .rgb8Uint => .plain .uint8 3 false
  | .rgb8Sint => .plain .sint8 3 false
  | .bgr8Unorm => .plain .unorm8 3 true
  | .rgba8Unorm => .plain .unorm8 4 false
  | .rgba8Snorm => .plain .snorm8 4 false
  | .rgba8Uint => .plain .uint8 4 false
  | .rgba8Sint => .plain .sint8 4 false
  | .bgra8Unorm => .plain .unorm8 4 true
  | .r16Unorm => .plain .unorm16 1 false
  | .r16Snorm => .plain .snorm16 1 false
  | .r16Uint => .plain .uint16 1 false
  | .r16Sint => .plain .sint16 1 false
  | .r16Sfloat => .plain .sfloat16 1 false
  | .rg16Unorm => .plain .unorm16 2 false
  | .rg16Sfloat => .plain .sfloat16 2 false
  | .rgba16Unorm => .plain .unorm16 4 false
  | .rgba16Uint => .plain .uint16 4 false
  | .rgba16Sfloat => .plain .sfloat16 4 false
  | .r32Uint => .plain .uint32 1 false
  | .r32Sint => .plain .sint32 1 false
  | .r32Sfloat => .plain .sfloat32 1 false
  | .rg32Sfloat => .plain .sfloat32 2 false
  | .rgb32Sfloat => .plain .sfloat32 3 false
  | .rgba32Uint => .plain .uint32 4 false
  | .rgba32Sfloat => .plain .sfloat32 4 false
  | .r4g4b4a4Unorm => .packed #v[⟨12, 4⟩, ⟨8, 4⟩, ⟨4, 4⟩, ⟨0, 4⟩]
  | .r5g6b5Unorm => .packed #v[⟨11, 5⟩, ⟨5, 6⟩, ⟨0, 5⟩, ⟨0, 0⟩]
  | .b5g6r5Unorm => .packed #v[⟨0, 5⟩, ⟨5, 6⟩, ⟨11, 5⟩, ⟨0, 0⟩]
  | .r5g5b5a1Unorm => .packed #v[⟨11, 5⟩, ⟨6, 5⟩, ⟨1, 5⟩, ⟨0, 1⟩]
  | .d32Sfloat => .depth32
  | .d24UnormS8Uint => .depth24Stencil8
  | .s8Uint => .stencil8
  | .bc1RgbUnorm => .block (.bc1 false)
  | .bc1RgbaUnorm => .block (.bc1 true)
  | .bc2Unorm => .block .bc2
  | .bc3Unorm => .block .bc3
  | .bc4Unorm => .block (.bc4 false)
  | .bc4Snorm => .block (.bc4 true)
  | .bc5Unorm => .block (.bc5 false)
  | .bc5Snorm => .block (.bc5 true)

/-- The bytes of a texel, or of a block for compressed formats. -/
def stride (f : Format) : Nat :=
  match f.layout with
  | .plain component channels _ => component.size * channels
  | .packed _ => 2
  | .depth32 | .depth24Stencil8 => 4
  | .stencil8 => 1
  | .block kind => kind.size

/-- Whether texels are stored in blocks. -/
def isCompressed (f : Format) : Bool :=
  match f.layout with
  | .block _ => true
  | _ => false

/-- The width and height of a storage unit in texels. -/
def blockExtent (f : Format) : Nat := if f.isCompressed then 4 else 1

/-- Whether texels hold a depth. -/
def hasDepth (f : Format) : Bool :=
  match f.layout with
  | .depth32 | .depth24Stencil8 => true
  | _ => false

/-- Whether texels hold a stencil value. -/
def hasStencil (f : Format) : Bool :=
  match f.layout with
  | .depth24Stencil8 | .stencil8 => true
  | _ => false

/-- Whether colours can be written. -/
def isColorRenderable (f : Format) : Bool :=
  match f.layout with
  | .plain .. | .packed _ => true
  | _ => false

/-- How many storage units cover `size` texels in one direction. -/
def blocksAcross (f : Format) (size : Nat) : Nat :=
  (size + f.blockExtent - 1) / f.blockExtent

/-- The bytes that a region's storage units take. -/
def regionSize (f : Format) (width height depth : Nat) : Nat :=
  f.blocksAcross width * f.blocksAcross height * depth * f.stride

/-- The size of a region, as long as the product stays in a 64-bit word.  The factors are
32-bit words and the stride is positive, so a product that leaves the word does not come
back. -/
def regionSize? (f : Format) (width height depth : Nat) : Option Nat :=
  let bytes := f.regionSize width height depth
  if bytes < 2 ^ 64 then some bytes else none

end Format

/-! ## Descriptions -/

/-- A switch in words. -/
def switchText (b : Bool) : String := if b then "true" else "false"

/-- A bit field as shift and width. -/
def BitField.text (f : BitField) : String := s!"({f.shift}, {f.width})"

/-- A block family with its variant. -/
def BlockKind.text : BlockKind → String
  | .bc1 alpha => "Bc1 \x7b alpha: " ++ switchText alpha ++ " \x7d"
  | .bc2 => "Bc2"
  | .bc3 => "Bc3"
  | .bc4 signed => "Bc4 \x7b signed: " ++ switchText signed ++ " \x7d"
  | .bc5 signed => "Bc5 \x7b signed: " ++ switchText signed ++ " \x7d"

/-- A layout with everything that distinguishes it. -/
def Layout.text : Layout → String
  | .plain component channels bgr =>
    "Plain \x7b component: " ++ Named.name component ++ s!", channels: {channels}, bgr: "
      ++ switchText bgr ++ " \x7d"
  | .packed fields =>
    "Packed(Packed \x7b fields: [" ++ ", ".intercalate (fields.toList.map BitField.text)
      ++ "] \x7d)"
  | .depth32 => "Depth32"
  | .depth24Stencil8 => "Depth24Stencil8"
  | .stencil8 => "Stencil8"
  | .block kind => "Block(" ++ kind.text ++ ")"

end PixelPipeline
