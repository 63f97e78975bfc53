import PixelPipeline.Fault
import PixelPipeline.Bytes

/-!
# Images

An image owns the bytes of all its levels and layers: levels one behind the
other, in each level its layers, in each layer slices, rows and storage units
without gaps.

Sizes and offsets are 64-bit words.  The levels of a description are measured one
after the other: a total that leaves the word is refused, and so is one that the
allocator has no room for, but a single layer that leaves the word stops the
program.  Offsets into an image that was created stay in the word.
-/

namespace PixelPipeline

namespace ImageDesc

/-- The first thing wrong with a description, if anything. -/
def flaw? (d : ImageDesc) : Option DescFlaw :=
  if d.width = 0 ∨ d.height = 0 ∨ d.depth = 0 then some .zeroExtent
  else if d.levels = 0 ∨ d.maxLevels < d.levels then some .levelCount
  else if d.layers = 0 ∨ (!d.imageType.isArray ∧ d.layers ≠ 1) then some .layerCount
  else if d.imageType.axes = 1 ∧ (d.height ≠ 1 ∨ d.depth ≠ 1) then some .notFlat1D
  else if d.imageType.axes = 2 ∧ d.depth ≠ 1 then some .notFlat2D
  else none

/-- Accepts the descriptions that images can have. -/
def validate (d : ImageDesc) : Except Fault Unit :=
  match d.flaw? with
  | some flaw => .error (.invalidImage (.desc flaw d))
  | none =>
    if d.imageType.supports d.format then .ok ()
    else .error (.unsupportedFetch d.format d.imageType)

/-- The bytes up to the end of a level, from those before it. -/
def measureLevel (d : ImageDesc) (total level : Nat) : Except Fault Nat :=
  let e := d.levelExtent level
  match d.format.regionSize? e.x e.y e.z with
  | none => .error .overflow
  | some layer =>
    if total + layer * d.layers < 2 ^ 64 then .ok (total + layer * d.layers)
    else .error (.invalidImage (.desc .tooLarge d))

/-- The bytes of all levels, measured level by level. -/
def measure (d : ImageDesc) : Except Fault Nat :=
  (List.range d.levels).foldlM d.measureLevel 0

end ImageDesc

/-- The most bytes that an allocation can ask for; an allocator may have less room. -/
def maxAllocation : Nat := 2 ^ 63 - 1

/-- An image and its bytes. -/
structure Image where
  desc : ImageDesc
  data : Array UInt8

namespace Image

/-- The zeroed image of a description, where the allocator has room for so many
bytes. -/
def create (room : Nat) (d : ImageDesc) : Except Fault Image := do
  d.validate
  let bytes ← d.measure
  if min room maxAllocation < bytes then throw (.outOfMemory bytes)
  return ⟨d, Array.replicate bytes 0⟩

/-- The extent of a level; levels that do not exist are single texels. -/
def extent (i : Image) (level : Nat) : Extent :=
  if level < i.desc.levels then i.desc.levelExtent level else ⟨1, 1, 1⟩

/-- Where a layer starts and how many bytes it has. -/
def layerRange? (i : Image) (level layer : Nat) : Option (Nat × Nat) :=
  if layer < i.desc.layers ∧ level < i.desc.levels then
    let size := i.desc.layerSize level
    some (i.desc.levelStart level + size * layer, size)
  else none

/-- The position of a texel's storage unit in its layer, in units. -/
def unitIndex (f : Format) (e : Extent) (x y z : Nat) : Nat :=
  (z * f.blocksAcross e.y + y / f.blockExtent) * f.blocksAcross e.x + x / f.blockExtent

/-- Where the storage unit of a texel starts. -/
def texelOffset? (i : Image) (t : TexelIndex) : Option Nat := do
  let (start, _) ← i.layerRange? t.level t.layer
  let e := i.extent t.level
  if t.x < e.x ∧ t.y < e.y ∧ t.z < e.z then
    some (start + unitIndex i.desc.format e t.x t.y t.z * i.desc.format.stride)
  else none

/-- The bytes from a position on, if the image has so many. -/
def bytesAt? (i : Image) (offset count : Nat) : Option Bytes :=
  if offset + count ≤ i.data.size then some (i.data.extract offset (offset + count)).toList
  else none

/-- The bytes of a texel's storage unit. -/
def texel? (i : Image) (t : TexelIndex) : Option Bytes :=
  i.texelOffset? t >>= fun offset => i.bytesAt? offset i.desc.format.stride

/-- Writes bytes from a position on; bytes beyond the storage are dropped. -/
def writeFrom (data : Array UInt8) : (offset : Nat) → Bytes → Array UInt8
  | _, [] => data
  | offset, b :: rest => writeFrom (data.setIfInBounds offset b) (offset + 1) rest

/-- Replaces the bytes from a position on. -/
def writeAt (i : Image) (offset : Nat) (bytes : Bytes) : Image :=
  { i with data := writeFrom i.data offset bytes }

/-- Replaces the storage unit of a texel; other texels keep theirs. -/
def setTexel (i : Image) (t : TexelIndex) (bytes : Bytes) : Image :=
  match i.texelOffset? t with
  | some offset => i.writeAt offset bytes
  | none => i

/-- Replaces all bytes of a layer. -/
def upload (i : Image) (level layer : Nat) (bytes : Bytes) : Except Fault Image :=
  match i.layerRange? level layer with
  | none => .error (.invalidImage (.missingLayer level layer))
  | some (start, size) =>
    if bytes.length = size then .ok (i.writeAt start bytes)
    else .error (.invalidImage (.uploadSize bytes.length size))

/-- Writes the same bytes `count` times in a row. -/
def repeatFrom (data : Array UInt8) (texel : Bytes) : (offset count : Nat) → Array UInt8
  | _, 0 => data
  | offset, count + 1 =>
    repeatFrom (writeFrom data offset texel) texel (offset + texel.length) count

/-- Fills a layer with one texel. -/
def fill (i : Image) (level layer : Nat) (texel : Bytes) : Image :=
  match i.layerRange? level layer with
  | some (start, size) => { i with data := repeatFrom i.data texel start (size / texel.length) }
  | none => i

end Image

end PixelPipeline
