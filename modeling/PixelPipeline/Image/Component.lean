import PixelPipeline.Binary16
import PixelPipeline.Bytes
import PixelPipeline.Image.Format

/-!
# Component encodings

A component of a plain format is one number in one to four bytes.  Normalised
encodings divide by their greatest code; signed ones use a symmetric range, so
the least code and its successor both decode to minus one.  Integer encodings
keep the number itself.  Encoding clamps to the range of the format, rounds to
the nearest code with halves away from zero, and saturates; NaN becomes code
zero except in the float encodings.
-/

namespace PixelPipeline

/-- The greatest codes of the normalised encodings, as floats. -/
def unormMax8 : Binary32 := Binary32.ofNat 255
def snormMax8 : Binary32 := Binary32.ofNat 127
def unormMax16 : Binary32 := Binary32.ofNat 65535
def snormMax16 : Binary32 := Binary32.ofNat 32767

namespace Component

/-- The value of a signed normalised code. -/
def decodeSnorm (code : Int) (max : Binary32) : Binary32 :=
  Binary32.larger (Binary32.ofInt code / max) (-Binary32.one)

/-- The value of a component's word. -/
def decodeWord (c : Component) (word : Nat) : Binary32 :=
  match c with
  | .unorm8 => Binary32.ofNat word / unormMax8
  | .snorm8 => decodeSnorm (Bytes.signed 8 word) snormMax8
  | .uint8 => Binary32.ofNat word
  | .sint8 => Binary32.ofInt (Bytes.signed 8 word)
  | .unorm16 => Binary32.ofNat word / unormMax16
  | .snorm16 => decodeSnorm (Bytes.signed 16 word) snormMax16
  | .uint16 => Binary32.ofNat word
  | .sint16 => Binary32.ofInt (Bytes.signed 16 word)
  | .sfloat16 => Binary16.toBinary32 word.toUInt16
  | .uint32 => Binary32.ofNat word
  | .sint32 => Binary32.ofInt (Bytes.signed 32 word)
  | .sfloat32 => ⟨word.toUInt32⟩

/-- The rounded code of a value in the unit interval. -/
def roundUnorm (v max : Binary32) : Binary32 := Binary32.roundHalfAway (Binary32.clampUnit v * max)

/-- The rounded code of a value between minus one and one. -/
def roundSnorm (v max : Binary32) : Binary32 :=
  Binary32.roundHalfAway (Binary32.clamp (-Binary32.one) Binary32.one v * max)

/-- The word of a value. -/
def encodeWord (c : Component) (v : Binary32) : Nat :=
  match c with
  | .unorm8 => (roundUnorm v unormMax8).toUInt8.toNat
  | .snorm8 => Bytes.ofSigned 8 (Binary32.toInt8 (roundSnorm v snormMax8))
  | .uint8 => (Binary32.roundHalfAway v).toUInt8.toNat
  | .sint8 => Bytes.ofSigned 8 (Binary32.toInt8 (Binary32.roundHalfAway v))
  | .unorm16 => (roundUnorm v unormMax16).toUInt16.toNat
  | .snorm16 => Bytes.ofSigned 16 (Binary32.toInt16 (roundSnorm v snormMax16))
  | .uint16 => (Binary32.roundHalfAway v).toUInt16.toNat
  | .sint16 => Bytes.ofSigned 16 (Binary32.toInt16 (Binary32.roundHalfAway v))
  | .sfloat16 => (Binary16.ofBinary32 v).toNat
  | .uint32 => (Binary32.roundHalfAway v).toUInt32.toNat
  | .sint32 => Bytes.ofSigned 32 (Binary32.toInt32 (Binary32.roundHalfAway v))
  | .sfloat32 => v.bits.toNat

/-- The value that the bytes of a component hold. -/
def decode (c : Component) (bytes : Bytes) : Binary32 := c.decodeWord (Bytes.wordOf bytes)

/-- The bytes of a component that hold a value. -/
def encode (c : Component) (v : Binary32) : Bytes := Bytes.wordBytes c.size (c.encodeWord v)

end Component

end PixelPipeline
