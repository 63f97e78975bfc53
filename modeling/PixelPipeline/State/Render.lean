import PixelPipeline.Color
import PixelPipeline.Handle
import PixelPipeline.State.Blend
import PixelPipeline.State.Raster

/-!
# The state of a draw

Everything that a user sets between draws: blending, the depth and stencil
tests, the switches and rectangles that gate fragments, and the surfaces that
are written.
-/

namespace PixelPipeline

/-- The stencil reference of either facing. -/
structure StencilReference where
  front : UInt8
  back : UInt8
  deriving DecidableEq, Repr

/-- Both zero. -/
instance : Inhabited StencilReference := ⟨⟨0, 0⟩⟩

/-- The reference that a fragment's facing selects. -/
def StencilReference.get (r : StencilReference) (frontFacing : Bool) : UInt8 :=
  if frontFacing then r.front else r.back

/-- The state that a user sets freely. -/
structure RenderState where
  blend : BlendAttachment
  /-- The global switch, combined with the attachment's own. -/
  blendEnabled : Bool
  blendConstant : Color
  depthStencil : DepthStencilState
  rasterizer : RasterizerState
  depthRange : DepthRange
  scissor : ScissorRect
  stencilReference : StencilReference

namespace RenderState

/-- Nothing blended, nothing tested. -/
instance : Inhabited RenderState :=
  ⟨⟨.replace, false, Color.transparent, default, default, default, default, default⟩⟩

/-- The part of the state that selects a blend unit. -/
def pipelineState (s : RenderState) : PipelineState :=
  ⟨s.blend, s.blendEnabled, s.depthStencil.depthWrite⟩

end RenderState

/-- The surfaces that fragments write. -/
structure Targets where
  color : Option (Handle .surface)
  depth : Option (Handle .surface)
  stencil : Option (Handle .surface)
  deriving DecidableEq, Repr

namespace Targets

/-- Nothing bound. -/
instance : Inhabited Targets := ⟨⟨none, none, none⟩⟩

/-- The bound surfaces: colour, depth, stencil. -/
def bound (t : Targets) : List (Handle .surface) :=
  t.color.toList ++ t.depth.toList ++ t.stencil.toList

end Targets

end PixelPipeline
