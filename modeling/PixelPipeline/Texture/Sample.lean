import PixelPipeline.Image.Block
import PixelPipeline.Resource.Store
import PixelPipeline.Texture.Filter

/-!
# Sampling

A texture unit binds a view and a sampler.  Sampling chooses levels and a layer,
splits the coordinate along the axes of the image, filters, and rearranges the
result.  A unit with nothing bound samples as opaque black.

Fetches of one filter share the last decoded block, so the texels of a block are
decoded once; the memory never changes an answer.
-/

namespace PixelPipeline

/-- A view and the sampler it is sampled with. -/
structure TextureBinding where
  view : Handle .view
  sampler : Handle .sampler
  deriving DecidableEq, Repr

/-- The texture units. -/
structure TextureUnits where
  slots : List (Option TextureBinding)
  deriving DecidableEq, Repr

namespace TextureUnits

/-- Units with nothing bound. -/
def create (count : Nat) : TextureUnits := ⟨List.replicate count none⟩

/-- The number of units. -/
def size (u : TextureUnits) : Nat := u.slots.length

/-- What is bound to a unit. -/
def binding (u : TextureUnits) (unit : Nat) : Except Fault (Option TextureBinding) :=
  match u.slots[unit]? with
  | some slot => .ok slot
  | none => .error (.textureUnit unit u.size)

/-- Binds a unit, or unbinds it. -/
def set (u : TextureUnits) (unit : Nat) (slot : Option TextureBinding) :
    Except Fault TextureUnits :=
  if unit < u.size then .ok ⟨u.slots.set unit slot⟩ else .error (.textureUnit unit u.size)

end TextureUnits

/-! ## Fetching -/

/-- Where the texels of one filter come from. -/
structure TexelSource where
  image : Image
  /-- The format in which the bytes are read. -/
  format : Format
  level : Nat
  layer : Nat

/-- The block decoded last and where it starts. -/
abbrev BlockMemory : Type := Option (Nat × Block.Texels)

namespace TexelSource

/-- The position of the texel with the given indices; absent ones are zero. -/
def texelIndex (s : TexelSource) (indices : List Int) : TexelIndex :=
  let coord (axis : Nat) : Nat := (indices[axis]?.getD 0).toNat
  ⟨s.level, s.layer, coord 0, coord 1, coord 2⟩

/-- The entry of a texel in its block. -/
def blockEntry (t : TexelIndex) (texels : Block.Texels) : Color :=
  texels[t.x % 4 + 4 * (t.y % 4)]?.getD Color.transparent

/-- The texels of a block, remembered or decoded. -/
def blockTexels? (memory : BlockMemory) (kind : BlockKind) (offset : Nat) (bytes : Bytes) :
    Option Block.Texels :=
  match memory with
  | some (start, texels) => if start = offset then some texels else Block.decode? kind bytes
  | none => Block.decode? kind bytes

/-- The colour at a position, and the block to remember. -/
def fetch? (s : TexelSource) (memory : BlockMemory) (t : TexelIndex) :
    Option (Color × BlockMemory) := do
  let offset ← s.image.texelOffset? t
  let bytes ← s.image.bytesAt? offset s.format.stride
  match s.format.layout with
  | .block kind =>
    let texels ← blockTexels? memory kind offset bytes
    return (blockEntry t texels, some (offset, texels))
  | _ => return (← s.format.decode? bytes, memory)

/-- The colour with the given indices. -/
def fetch (s : TexelSource) (indices : List Int) : StateT BlockMemory (Except Fault) Color :=
  fun memory =>
    let t := s.texelIndex indices
    match s.fetch? memory t with
    | some answer => .ok answer
    | none => .error (.invalidImage (.sampledOutside t))

end TexelSource

/-! ## Levels and layers -/

/-- A whole number chosen by a float: at most `last`, and zero for NaN. -/
def chooseUpTo (last : Nat) (v : Binary32) : Nat :=
  (Binary32.clamp Binary32.zero (Binary32.ofNat last) v).toUInt32.toNat

namespace View

/-- The level of the image that a level of detail selects. -/
def levelAt (v : View) (lod : Binary32) : Nat := v.minLevel + chooseUpTo (v.numLevels - 1) lod

/-- The layer of the image that a coordinate selects, the nearest one.  Layers are 32-bit
words, and a sum that leaves the word stops the program. -/
def layerAt (v : View) (coord : Option Binary32) : Except Fault Nat :=
  let chosen := coord.elim 0 fun c =>
    chooseUpTo (v.numLayers - 1) (Binary32.roundHalfAway c)
  match wordSum? v.minLayer chosen with
  | some layer => .ok layer
  | none => .error .overflow

end View

/-- The levels that a sample is taken from. -/
inductive LevelChoice where
  | one (level : Nat)
  /-- Two levels, and how far the sample lies from the first one to the second. -/
  | two (near far : Nat) (weight : Binary32)

/-- Three texture coordinates. -/
abbrev TexCoord : Type := Vector Binary32 3

/-- The coordinate that selects a layer. -/
def ImageType.layerCoord? (t : ImageType) (coord : TexCoord) : Option Binary32 :=
  match t with
  | .d1Array => some (coord.get 1)
  | .d2Array => some (coord.get 2)
  | _ => none

/-- What a bound unit resolves to. -/
structure BoundTexture where
  image : Image
  view : View
  sampler : Sampler

namespace BoundTexture

/-- The coordinate split along the axes of the image, at a level. -/
def axes (b : BoundTexture) (coord : TexCoord) (level : Nat) : List AxisCoord :=
  let e := b.image.extent level
  let sizes := [e.x, e.y, e.z]
  ((coord.toList.zip (sizes.zip b.sampler.addressModes)).map fun (c, size, mode) =>
    AxisCoord.ofCoord c size mode).take b.image.desc.imageType.axes

/-- The filtered colour at a level. -/
def sampleLevel (b : BoundTexture) (coord : TexCoord) (level : Nat) (mode : FilterMode) :
    Except Fault Color := do
  let layer ← b.view.layerAt (b.image.desc.imageType.layerCoord? coord)
  let source : TexelSource := ⟨b.image, b.view.format, level, layer⟩
  let answer ← (filter mode b.sampler.border source.fetch (b.axes coord level) []).run none
  return answer.1

/-- The colour at the view's first level, magnified. -/
def sample (b : BoundTexture) (coord : TexCoord) : Except Fault Color := do
  let texel ← b.sampleLevel coord b.view.minLevel b.sampler.magFilter
  return Swizzle.apply b.view.swizzle texel

/-- The level of detail after the sampler's bias and clamps. -/
def effectiveLod (b : BoundTexture) (lod : Binary32) : Binary32 :=
  Binary32.smaller (Binary32.larger (lod + b.sampler.lodBias) b.sampler.lodMin) b.sampler.lodMax

/-- The levels that a level of detail, biased and clamped, is sampled from. -/
def levelChoice (b : BoundTexture) (lod : Binary32) : LevelChoice :=
  match b.sampler.mipmapFilter with
  | .nearest => .one (b.view.levelAt (Binary32.roundHalfAway lod))
  | .linear =>
    let above := Binary32.larger lod Binary32.zero
    let base := Binary32.floor above
    .two (b.view.levelAt base) (b.view.levelAt (base + Binary32.one)) (above - base)

/-- The colour at a level of detail, from the nearest level or between two. -/
def sampleLod (b : BoundTexture) (coord : TexCoord) (lod : Binary32) : Except Fault Color := do
  let lod := b.effectiveLod lod
  let mode := b.sampler.filterFor lod
  let texel ← match b.levelChoice lod with
    | .one level => b.sampleLevel coord level mode
    | .two near far weight => do
      let v ← b.sampleLevel coord near mode
      let w ← b.sampleLevel coord far mode
      pure (Vector.ofFn fun i => lerp (v.get i) (w.get i) weight)
  return Swizzle.apply b.view.swizzle texel

end BoundTexture

/-! ## Texture units -/

/-- Read access to the bound textures. -/
structure Textures where
  resources : Resources
  units : TextureUnits

namespace Textures

/-- What is bound to a unit, if anything is. -/
def resolve (t : Textures) (unit : Nat) : Except Fault (Option BoundTexture) := do
  match ← t.units.binding unit with
  | none => return none
  | some binding =>
    let view ← t.resources.view binding.view
    let image ← t.resources.image view.image
    let sampler ← t.resources.sampler binding.sampler
    return some ⟨image, view, sampler⟩

/-- Samples a unit at its first level. -/
def sample (t : Textures) (unit : Nat) (coord : TexCoord) : Except Fault Color := do
  match ← t.resolve unit with
  | none => return Color.opaqueBlack
  | some bound => bound.sample coord

/-- Samples a unit at a level of detail. -/
def sampleLod (t : Textures) (unit : Nat) (coord : TexCoord) (lod : Binary32) :
    Except Fault Color := do
  match ← t.resolve unit with
  | none => return Color.opaqueBlack
  | some bound => bound.sampleLod coord lod

end Textures

end PixelPipeline
