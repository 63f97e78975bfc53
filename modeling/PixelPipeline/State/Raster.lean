import PixelPipeline.State.Compare

/-!
# State read per fragment

Depth and stencil configuration, the switches that gate fragments, the depth
range and the scissor rectangle.  None of it changes generated code.
-/

namespace PixelPipeline

/-- Stencil configuration of one facing. -/
structure StencilFace where
  compare : CompareOp
  failOp : StencilOp
  depthFailOp : StencilOp
  passOp : StencilOp
  compareMask : UInt8
  writeMask : UInt8
  deriving DecidableEq, Repr

/-- The face that accepts everything and changes nothing. -/
instance : Inhabited StencilFace := ⟨⟨.always, .keep, .keep, .keep, 0xff, 0xff⟩⟩

/-- Whether the masked reference stands in the face's relation to the masked
stored value. -/
def StencilFace.accepts (face : StencilFace) (reference stored : UInt8) : Bool :=
  face.compare.testStencil (reference &&& face.compareMask) (stored &&& face.compareMask)

/-- Depth and stencil test configuration. -/
structure DepthStencilState where
  depthTest : Bool
  depthWrite : Bool
  depthCompare : CompareOp
  stencilTest : Bool
  front : StencilFace
  back : StencilFace
  deriving DecidableEq, Repr

/-- Both tests off, depth writes on. -/
instance : Inhabited DepthStencilState := ⟨⟨false, true, .less, false, default, default⟩⟩

/-- The face that a fragment's facing selects. -/
def DepthStencilState.face (s : DepthStencilState) (frontFacing : Bool) : StencilFace :=
  if frontFacing then s.front else s.back

/-- Per-draw switches that gate fragments. -/
structure RasterizerState where
  discard : Bool
  depthClamp : Bool
  scissorTest : Bool
  deriving DecidableEq, Repr

/-- All switches off. -/
instance : Inhabited RasterizerState := ⟨⟨false, false, false⟩⟩

/-- The interval of depths that the viewport admits. -/
structure DepthRange where
  near : Binary32
  far : Binary32

/-- The unit interval. -/
instance : Inhabited DepthRange := ⟨⟨Binary32.zero, Binary32.one⟩⟩

namespace DepthRange

/-- Whether the depth lies between the ends; never true of NaN. -/
def contains (r : DepthRange) (z : Binary32) : Bool :=
  Binary32.le r.near z && Binary32.le z r.far

/-- The depth moved to the nearer end when it lies outside; NaN goes to the
near end. -/
def clamp (r : DepthRange) (z : Binary32) : Binary32 :=
  Binary32.smaller (Binary32.larger z r.near) r.far

end DepthRange

/-- A rectangle of window positions, its origin at the bottom left. -/
structure ScissorRect where
  x : Int
  y : Int
  width : Nat
  height : Nat
  deriving DecidableEq, Repr

/-- The empty rectangle. -/
instance : Inhabited ScissorRect := ⟨⟨0, 0, 0, 0⟩⟩

/-- Whether the position lies inside; the right and top edges are outside. -/
def ScissorRect.contains (r : ScissorRect) (x y : Int) : Bool :=
  r.x ≤ x && r.y ≤ y && x < r.x + r.width && y < r.y + r.height

end PixelPipeline
