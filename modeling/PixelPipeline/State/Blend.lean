import PixelPipeline.Text.Named

/-!
# Blend state

The part of the pipeline state that selects a specialised blend unit: four
factors, two equations, a channel mask and three switches.  Two states that
differ in any of these are different, and a state determines its unit.
-/

namespace PixelPipeline

/-- Multiplier applied to a colour before the two are combined. -/
inductive BlendFactor where
  | zero
  | one
  | srcColor
  | oneMinusSrcColor
  | dstColor
  | oneMinusDstColor
  | srcAlpha
  | oneMinusSrcAlpha
  | dstAlpha
  | oneMinusDstAlpha
  | constantColor
  | oneMinusConstantColor
  | constantAlpha
  | oneMinusConstantAlpha
  /-- The smaller of the source alpha and one minus the destination alpha. -/
  | srcAlphaSaturate
  deriving DecidableEq, Repr, Inhabited

instance : Named BlendFactor where
  all := [.zero, .one, .srcColor, .oneMinusSrcColor, .dstColor, .oneMinusDstColor,
    .srcAlpha, .oneMinusSrcAlpha, .dstAlpha, .oneMinusDstAlpha, .constantColor,
    .oneMinusConstantColor, .constantAlpha, .oneMinusConstantAlpha, .srcAlphaSaturate]
  name
    | .zero => "Zero"
    | .one => "One"
    | .srcColor => "SrcColor"
    | .oneMinusSrcColor => "OneMinusSrcColor"
    | .dstColor => "DstColor"
    | .oneMinusDstColor => "OneMinusDstColor"
    | .srcAlpha => "SrcAlpha"
    | .oneMinusSrcAlpha => "OneMinusSrcAlpha"
    | .dstAlpha => "DstAlpha"
    | .oneMinusDstAlpha => "OneMinusDstAlpha"
    | .constantColor => "ConstantColor"
    | .oneMinusConstantColor => "OneMinusConstantColor"
    | .constantAlpha => "ConstantAlpha"
    | .oneMinusConstantAlpha => "OneMinusConstantAlpha"
    | .srcAlphaSaturate => "SrcAlphaSaturate"

/-- How the scaled source and destination are combined, channel by channel. -/
inductive BlendEquation where
  | add
  /-- Source minus destination. -/
  | subtract
  /-- Destination minus source. -/
  | reverseSubtract
  | min
  | max
  deriving DecidableEq, Repr, Inhabited

instance : Named BlendEquation where
  all := [.add, .subtract, .reverseSubtract, .min, .max]
  name
    | .add => "Add"
    | .subtract => "Subtract"
    | .reverseSubtract => "ReverseSubtract"
    | .min => "Min"
    | .max => "Max"

/-- The colour channels that may be written: bit `i` stands for channel `i` of
red, green, blue, alpha.  The four high bits have no meaning but are kept. -/
structure ColorMask where
  bits : UInt8
  deriving DecidableEq, Repr

namespace ColorMask

/-- Every channel. -/
def all : ColorMask := ⟨0x0f⟩

instance : Inhabited ColorMask := ⟨all⟩

/-- Whether the channel is written. -/
def has (mask : ColorMask) (channel : Fin 4) : Bool := mask.bits.toNat.testBit channel

/-- The four channel switches, red first. -/
def channels (mask : ColorMask) : Vector Bool 4 := Vector.ofFn mask.has

/-- The mask of a code whose high bits are clear. -/
def ofCode? (code : Nat) : Option ColorMask :=
  if code < 16 then some ⟨code.toUInt8⟩ else none

end ColorMask

/-- Blend configuration of the colour target. -/
structure BlendAttachment where
  enable : Bool
  srcRgb : BlendFactor
  dstRgb : BlendFactor
  srcAlpha : BlendFactor
  dstAlpha : BlendFactor
  eqRgb : BlendEquation
  eqAlpha : BlendEquation
  colorMask : ColorMask
  deriving DecidableEq, Repr

namespace BlendAttachment

/-- Blending off, all channels written. -/
def replace : BlendAttachment :=
  ⟨false, .one, .zero, .one, .zero, .add, .add, .all⟩

/-- The usual *over* compositing of colours that are not premultiplied. -/
def alphaBlending : BlendAttachment :=
  ⟨true, .srcAlpha, .oneMinusSrcAlpha, .one, .oneMinusSrcAlpha, .add, .add, .all⟩

instance : Inhabited BlendAttachment := ⟨replace⟩

end BlendAttachment

/-- The state that selects a specialised blend unit. -/
structure PipelineState where
  attachment : BlendAttachment
  /-- The global switch; blending needs this and the attachment's own. -/
  blendEnabled : Bool
  depthWrite : Bool
  deriving DecidableEq, Repr

namespace PipelineState

instance : Inhabited PipelineState := ⟨⟨.replace, false, false⟩⟩

/-- Whether colours are blended rather than replaced. -/
def blendingActive (s : PipelineState) : Bool := s.blendEnabled && s.attachment.enable

end PipelineState

end PixelPipeline
