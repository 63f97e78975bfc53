import PixelPipeline.Color
import PixelPipeline.Fault
import PixelPipeline.Image.Component
import PixelPipeline.State.Blend

/-!
# Reading and writing texels

A texel buffer starts with the texel and may be longer.  Decoding fills absent
colour channels with zero and an absent alpha with one.  Encoding replaces the
channels that the format has and the mask selects and leaves every other bit as
it was; a buffer that is too short, or a format that cannot be written, is
refused before anything changes.
-/

namespace PixelPipeline.Format

/-- Red and blue exchanged in formats that store them so. -/
def reorder {α : Type} (bgr : Bool) (v : Vector α 4) : Vector α 4 :=
  if bgr then
    #v[v.get Color.blueChannel, v.get Color.greenChannel, v.get Color.redChannel,
      v.get Color.alphaChannel]
  else v

/-- The colour of a plain texel. -/
def decodePlain (component : Component) (channels : Nat) (bgr : Bool) (bytes : Bytes) : Color :=
  let size := component.size
  let stored : Color := Vector.ofFn fun i =>
    if i < channels then component.decode (Bytes.slice bytes (i * size) size)
    else Color.opaqueBlack.get i
  reorder bgr stored

/-- The greatest code of a bit field. -/
def fieldMax (f : BitField) : Nat := 2 ^ f.width - 1

/-- The value of a bit field of a word. -/
def decodeField (f : BitField) (word : Nat) : Binary32 :=
  Binary32.ofNat (word / 2 ^ f.shift % 2 ^ f.width) / Binary32.ofNat (fieldMax f)

/-- The colour of a packed word. -/
def decodePacked (fields : Vector BitField 4) (word : Nat) : Color :=
  Vector.ofFn fun i =>
    if (fields.get i).width = 0 then Color.opaqueBlack.get i else decodeField (fields.get i) word

/-- The greatest code of a 24-bit depth. -/
def depth24Max : Binary32 := Binary32.ofNat 0xffffff

/-- The depth of a texel, if the format has one. -/
def readDepth? (f : Format) (bytes : Bytes) : Option Binary32 :=
  if bytes.length < 4 then none
  else
    let word := Bytes.wordOf (bytes.take 4)
    match f.layout with
    | .depth32 => some ⟨word.toUInt32⟩
    | .depth24Stencil8 => some (Binary32.ofNat (word % 2 ^ 24) / depth24Max)
    | _ => none

/-- The position of the stencil byte, if the format has one. -/
def stencilIndex? (f : Format) : Option Nat :=
  match f.layout with
  | .depth24Stencil8 => some 3
  | .stencil8 => some 0
  | _ => none

/-- The stencil value of a texel, if the format has one. -/
def readStencil? (f : Format) (bytes : Bytes) : Option UInt8 :=
  f.stencilIndex? >>= fun i => bytes[i]?

/-- A colour that has only a first channel. -/
def redOnly (v : Binary32) : Color := Color.mk v Binary32.zero Binary32.zero Binary32.one

/-- The colour of an uncompressed texel.  Depth and stencil values appear as
red. -/
def decode? (f : Format) (bytes : Bytes) : Option Color :=
  if bytes.length < f.stride then none
  else
    match f.layout with
    | .plain component channels bgr => some (decodePlain component channels bgr bytes)
    | .packed fields => some (decodePacked fields (Bytes.wordOf (bytes.take 2)))
    | .depth32 | .depth24Stencil8 => (f.readDepth? bytes).map redOnly
    | .stencil8 => (f.readStencil? bytes).map fun s => redOnly (Binary32.ofNat s.toNat)
    | .block _ => none

/-! ## Writing -/

/-- Writes the selected components of a plain texel. -/
def encodePlain (component : Component) (channels : Nat) (bgr : Bool) (color : Color)
    (enabled : Vector Bool 4) (bytes : Bytes) : Bytes :=
  let size := component.size
  let values := reorder bgr color
  let selected := reorder bgr enabled
  (List.finRange 4).foldl (fun (bytes : Bytes) (i : Fin 4) =>
    if i.val < channels ∧ selected.get i then
      Bytes.overwrite bytes (i.val * size) (component.encode (values.get i))
    else bytes) bytes

/-- The rounded code of a value in a bit field. -/
def encodeField (f : BitField) (v : Binary32) : Nat :=
  (Component.roundUnorm v (Binary32.ofNat (fieldMax f))).toUInt16.toNat % 2 ^ f.width

/-- The word with one bit field replaced. -/
def setField (f : BitField) (word code : Nat) : Nat :=
  word - word / 2 ^ f.shift % 2 ^ f.width * 2 ^ f.shift + code * 2 ^ f.shift

/-- Writes the selected bit fields of a packed word. -/
def encodePacked (fields : Vector BitField 4) (color : Color) (enabled : Vector Bool 4)
    (word : Nat) : Nat :=
  (List.finRange 4).foldl (fun (word : Nat) (i : Fin 4) =>
    if (fields.get i).width ≠ 0 ∧ enabled.get i then
      setField (fields.get i) word (encodeField (fields.get i) (color.get i))
    else word) word

/-- Writes the channels of a colour that the mask selects. -/
def encode (f : Format) (color : Color) (mask : ColorMask) (bytes : Bytes) :
    Except Fault Bytes :=
  if bytes.length < f.stride then .error (.invalidImage (.shortTexel f.stride))
  else
    match f.layout with
    | .plain component channels bgr =>
      .ok (encodePlain component channels bgr color mask.channels bytes)
    | .packed fields =>
      let word := encodePacked fields color mask.channels (Bytes.wordOf (bytes.take 2))
      .ok (Bytes.overwrite bytes 0 (Bytes.wordBytes 2 word))
    | _ => .error (.unsupportedTarget f .color)

/-- Writes a depth; a packed stencil value stays. -/
def writeDepth (f : Format) (depth : Binary32) (bytes : Bytes) : Except Fault Bytes :=
  if bytes.length < 4 then .error (.unsupportedTarget f .depth)
  else
    match f.layout with
    | .depth32 => .ok (Bytes.overwrite bytes 0 (Bytes.wordBytes 4 depth.bits.toNat))
    | .depth24Stencil8 =>
      let code := (Component.roundUnorm depth depth24Max).toUInt32.toNat
      let word := Bytes.wordOf (bytes.take 4)
      .ok (Bytes.overwrite bytes 0 (Bytes.wordBytes 4 (word / 2 ^ 24 * 2 ^ 24 + code)))
    | _ => .error (.unsupportedTarget f .depth)

/-- Writes a stencil value; a packed depth stays. -/
def writeStencil (f : Format) (value : UInt8) (bytes : Bytes) : Except Fault Bytes :=
  match f.stencilIndex? with
  | some i =>
    if i < bytes.length then .ok (bytes.set i value) else .error (.unsupportedTarget f .stencil)
  | none => .error (.unsupportedTarget f .stencil)

end PixelPipeline.Format
