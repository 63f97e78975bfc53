import PixelPipeline.Context.Basic

/-!
# Clearing and reading back

A clear writes one value to every texel of a target inside the scissor.  A
colour clear with all channels and no scissor fills the layer directly, every
slice of it.
-/

namespace PixelPipeline

namespace RenderContext

open Stage (Writing)

/-! ## Clears -/

/-- Whether clears leave a position alone.  The scissor counts in signed 32-bit
words. -/
def clearSkips (c : RenderContext) (x y : Nat) : Bool :=
  c.stage.scissored (Int.bmod x (2 ^ 32)) (Int.bmod y (2 ^ 32))

/-- The window positions of a surface, row by row from the bottom. -/
def positions (s : Surface) : List (Nat × Nat) :=
  (List.range s.height).flatMap fun y => (List.range s.width).map fun x => (x, y)

/-- Changes a texel of a surface if it exists. -/
def clearTexel (surface : Surface) (change : Bytes → Except Fault Bytes) (x y : Nat) :
    Writing Unit := do
  let r ← getThe Resources
  let image ← r.image surface.image
  match surface.texelIndex? x y >>= image.texel? with
  | none => return ()
  | some bytes =>
    let bytes ← change bytes
    modifyThe Resources fun r => r.setSurfaceTexel surface x y bytes

/-- Changes every texel of a surface that the scissor does not exclude. -/
def clearWith (c : RenderContext) (surface : Surface) (change : Bytes → Except Fault Bytes) :
    Writing Unit :=
  ((positions surface).filter fun p => !c.clearSkips p.1 p.2).forM fun p =>
    clearTexel surface change p.1 p.2

/-- Performs writes on the context's resources. -/
def perform (c : RenderContext) (writes : Writing Unit) : Except Fault Unit × RenderContext :=
  let (result, resources) := writes.run.run c.resources
  (result, { c with resources })

/-- Fills the layer of a surface with one colour. -/
def fillColor (surface : Surface) (color : Color) (mask : ColorMask) : Writing Unit := do
  let texel ← surface.format.encode color mask (List.replicate surface.format.stride 0)
  let r ← getThe Resources
  let _ ← r.image surface.image
  modifyThe Resources fun r =>
    r.modifyImage surface.image fun image => image.fill surface.level surface.layer texel

/-- Clears the colour target through the colour mask. -/
def clearColor (c : RenderContext) (color : Color) : Except Fault Unit × RenderContext :=
  match c.targets.color with
  | none => (.ok (), c)
  | some h => c.perform do
    let surface ← c.resources.surface h
    let mask := c.state.blend.colorMask
    if mask = .all ∧ !c.state.rasterizer.scissorTest then fillColor surface color mask
    else c.clearWith surface (surface.format.encode color mask)

/-- Clears the depth target. -/
def clearDepth (c : RenderContext) (depth : Binary32) : Except Fault Unit × RenderContext :=
  match c.targets.depth with
  | none => (.ok (), c)
  | some h => c.perform do
    let surface ← c.resources.surface h
    c.clearWith surface (surface.format.writeDepth depth)

/-- Clears the stencil target through the front write mask. -/
def clearStencil (c : RenderContext) (value : UInt8) : Except Fault Unit × RenderContext :=
  match c.targets.stencil with
  | none => (.ok (), c)
  | some h => c.perform do
    let surface ← c.resources.surface h
    let mask := c.state.depthStencil.front.writeMask
    c.clearWith surface fun bytes =>
      let old := (surface.format.readStencil? bytes).getD 0
      surface.format.writeStencil ((old &&& ~~~mask) ||| (value &&& mask)) bytes

/-! ## Reading back -/

/-- A missing texel is an absent value rather than a fault. -/
def absentIfMissing {α : Type} : Except Fault α → Except Fault (Option α)
  | .ok value => .ok (some value)
  | .error (.invalidImage _) => .ok none
  | .error fault => .error fault

/-- The colour at a window position; absent outside of the target. -/
def readColor (c : RenderContext) (x y : Nat) : Except Fault (Option Color) :=
  match c.targets.color with
  | none => .ok none
  | some h => do
    let surface ← c.resources.surface h
    return (← c.resources.surfaceTexel h x y) >>= surface.format.decode?

/-- The depth at a window position; absent outside of the target. -/
def readDepth (c : RenderContext) (x y : Nat) : Except Fault (Option Binary32) :=
  match c.targets.depth with
  | none => .ok none
  | some h => absentIfMissing (Stage.depthAt c.resources h x y)

/-- The stencil value at a window position; absent outside of the target. -/
def readStencil (c : RenderContext) (x y : Nat) : Except Fault (Option UInt8) :=
  match c.targets.stencil with
  | none => .ok none
  | some h => absentIfMissing (Stage.stencilAt c.resources h x y)

end RenderContext

end PixelPipeline
