import PixelPipeline.Color
import PixelPipeline.State.Blend

/-!
# Blending, directly

The meaning of a pipeline state: what it does to a stored pixel.  Every factor
is at most one rounded subtraction and one rounded product, every equation one
rounded sum or one comparison.  Minimum and maximum keep the source when it
compares and the destination otherwise, so a NaN on either side selects the
destination.
-/

namespace PixelPipeline

/-- A stored pixel: what a unit reads and writes. -/
structure Pixel where
  color : Color
  depth : Binary32

/-- What arrives at a pixel. -/
structure BlendInput where
  color : Color
  depth : Binary32
  constant : Color

/-- The smaller of the source alpha and one minus the destination alpha; the
latter when they do not compare. -/
def saturateFactor (src dst : Color) : Binary32 :=
  let room := Binary32.one - dst.alpha
  if Binary32.le src.alpha room then src.alpha else room

/-- `value` scaled by a factor in one channel. -/
def BlendFactor.scale (factor : BlendFactor) (value : Binary32) (src dst constant : Color)
    (channel : Fin 4) : Binary32 :=
  match factor with
  | .zero => Binary32.zero
  | .one => value
  | .srcColor => value * src.get channel
  | .oneMinusSrcColor => value * (Binary32.one - src.get channel)
  | .dstColor => value * dst.get channel
  | .oneMinusDstColor => value * (Binary32.one - dst.get channel)
  | .srcAlpha => value * src.alpha
  | .oneMinusSrcAlpha => value * (Binary32.one - src.alpha)
  | .dstAlpha => value * dst.alpha
  | .oneMinusDstAlpha => value * (Binary32.one - dst.alpha)
  | .constantColor => value * constant.get channel
  | .oneMinusConstantColor => value * (Binary32.one - constant.get channel)
  | .constantAlpha => value * constant.alpha
  | .oneMinusConstantAlpha => value * (Binary32.one - constant.alpha)
  | .srcAlphaSaturate => value * saturateFactor src dst

/-- Combines a scaled source and destination. -/
def BlendEquation.combine (equation : BlendEquation) (src dst : Binary32) : Binary32 :=
  match equation with
  | .add => src + dst
  | .subtract => src - dst
  | .reverseSubtract => dst - src
  | .min => if Binary32.le src dst then src else dst
  | .max => if Binary32.le dst src then src else dst

namespace BlendAttachment

/-- The source factor of a channel. -/
def srcFactor (a : BlendAttachment) (channel : Fin 4) : BlendFactor :=
  if channel = Color.alphaChannel then a.srcAlpha else a.srcRgb

/-- The destination factor of a channel. -/
def dstFactor (a : BlendAttachment) (channel : Fin 4) : BlendFactor :=
  if channel = Color.alphaChannel then a.dstAlpha else a.dstRgb

/-- The equation of a channel. -/
def equation (a : BlendAttachment) (channel : Fin 4) : BlendEquation :=
  if channel = Color.alphaChannel then a.eqAlpha else a.eqRgb

/-- The blended colour, before the mask. -/
def blend (a : BlendAttachment) (src dst constant : Color) : Color :=
  Vector.ofFn fun i => (a.equation i).combine
    ((a.srcFactor i).scale (src.get i) src dst constant i)
    ((a.dstFactor i).scale (dst.get i) src dst constant i)

end BlendAttachment

/-- The pixel after a fragment arrives. -/
def PipelineState.evaluate (s : PipelineState) (pixel : Pixel) (input : BlendInput) : Pixel :=
  let a := s.attachment
  let merged :=
    if s.blendingActive then a.blend input.color pixel.color input.constant else input.color
  { color := Color.select a.colorMask.channels pixel.color merged
    depth := if s.depthWrite then input.depth else pixel.depth }

end PixelPipeline
