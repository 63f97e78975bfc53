import PixelPipeline.Blend.Evaluate
import PixelPipeline.Proofs.Draw.Spots

/-!
# The pipeline of one pixel, as it is documented

A reference for what becomes of a fragment, written from the order of the
stages: a row of gates, each with the reason it gives for turning a fragment
away, and what is written once all of them are open.  It knows neither handles
nor faults, and it looks at the texels of images instead of their bytes in
memory.

* `entrance`, `tests` — the stages before the shader, in order;
* `outcome` — the first gate that is shut decides;
* `final` — what the texels hold afterwards, and that they are there to be
  written.
-/

namespace PixelPipeline

/-- What a fragment meets: the render state, and the surfaces it is drawn to. -/
structure Scene where
  state : RenderState
  color : Option Surface
  depth : Option Surface
  stencil : Option Surface

/-- The scene of a context, each target with the surface it is bound to. -/
def RenderContext.scene (c : RenderContext) : Scene where
  state := c.state
  color := c.targets.color >>= c.resources.surfaces.get?
  depth := c.targets.depth >>= c.resources.surfaces.get?
  stencil := c.targets.stencil >>= c.resources.surfaces.get?

namespace Scene

variable (q : Scene) (f : Fragment)

/-- The surfaces that are drawn to. -/
def surfaces : List Surface := q.color.toList ++ q.depth.toList ++ q.stencil.toList

/-- The images that are drawn to. -/
def images : List (Handle .image) := q.surfaces.map Surface.image

/-! ## Gates -/

/-- The depth of the fragment inside the depth range. -/
def depthOf : Binary32 :=
  if q.state.depthRange.contains f.z then f.z else q.state.depthRange.clamp f.z

/-- The stencil configuration for the fragment's facing. -/
def face : StencilFace :=
  if f.frontFacing then q.state.depthStencil.front else q.state.depthStencil.back

/-- The stencil reference for the fragment's facing. -/
def reference : UInt8 :=
  if f.frontFacing then q.state.stencilReference.front else q.state.stencilReference.back

/-- What a target holds under the fragment. -/
def stored {α : Type} (f : Fragment) (m : Texels) (target : Option Surface)
    (read : Format → Bytes → Option α) : Option α := do
  let s ← target
  let p ← s.spot? f.x f.y
  read p.format (← p.read m)

/-- The stencil value that is tested; there is none when the test is off or no
stencil target is bound. -/
def storedStencil (m : Texels) : Option UInt8 :=
  if q.state.depthStencil.stencilTest then stored f m q.stencil Format.readStencil? else none

/-- The depth that is tested against; there is none when the test is off or no
depth target is bound. -/
def storedDepth (m : Texels) : Option Binary32 :=
  if q.state.depthStencil.depthTest then stored f m q.depth Format.readDepth? else none

/-- A stage that lets fragments through or turns them away. -/
structure Gate where
  reason : DiscardReason
  isOpen : Bool
  /-- What happens to the stencil value when a fragment is turned away here. -/
  update : Option StencilOp

/-- The stages that look at the fragment and its position, in order. -/
def entrance : List Gate :=
  [⟨.rasterizerDiscard, !q.state.rasterizer.discard, none⟩,
    ⟨.depthRange, q.state.depthRange.contains f.z || q.state.rasterizer.depthClamp, none⟩,
    ⟨.scissor, !q.state.rasterizer.scissorTest || q.state.scissor.contains f.x f.y, none⟩,
    ⟨.outOfBounds, 0 ≤ f.x && 0 ≤ f.y && q.surfaces.all fun s => (s.spot? f.x f.y).isSome, none⟩]

/-- The stages that look at what is stored, in order. -/
def tests (m : Texels) : List Gate :=
  [⟨.stencilTest, (q.storedStencil f m).all ((q.face f).accepts (q.reference f)),
      some (q.face f).failOp⟩,
    ⟨.depthTest,
      (q.storedDepth f m).all (q.state.depthStencil.depthCompare.testDepth (q.depthOf f)),
      some (q.face f).depthFailOp⟩]

/-- The first of some gates that is shut. -/
def shut? (gates : List Gate) : Option Gate := gates.find? fun gate => !gate.isOpen

/-- The first stage before the shader that turns the fragment away. -/
def barrier? (m : Texels) : Option Gate := shut? (q.entrance f ++ q.tests f m)

/-- What becomes of the fragment, given what the shader makes of it. -/
def outcome (m : Texels) (shaded : Option Color) : FragmentOutcome :=
  match q.barrier? f m with
  | some gate => .discarded gate.reason
  | none => if shaded.isSome then .written else .discarded .shader

/-! ## Writes -/

/-- Replaces what a target holds under the fragment. -/
def revise (f : Fragment) (target : Option Surface) (change : Format → Bytes → Option Bytes)
    (m : Texels) : Option Texels :=
  match target with
  | none => some m
  | some s => do
    let p ← s.spot? f.x f.y
    let bytes ← change p.format (← p.read m)
    return p.write bytes m

/-- Updates the stencil value that was tested. -/
def updateStencil (tested : Option UInt8) (op : StencilOp) (m : Texels) : Option Texels :=
  match tested with
  | none => some m
  | some value => revise f q.stencil (fun format bytes =>
      (format.writeStencil (op.apply value (q.reference f) (q.face f).writeMask) bytes).toOption) m

/-- Blends the shaded colour into the colour target. -/
def blendColor (shaded : Color) (m : Texels) : Option Texels :=
  revise f q.color (fun format bytes => do
    let color ← format.decode? bytes
    let pixel := q.state.pipelineState.evaluate ⟨color, q.depthOf f⟩
      ⟨shaded.clampUnit, q.depthOf f, q.state.blendConstant⟩
    (format.encode pixel.color q.state.blend.colorMask bytes).toOption) m

/-- Stores the fragment's depth if depth writes are on. -/
def storeDepth (m : Texels) : Option Texels :=
  if q.state.depthStencil.depthWrite then
    revise f q.depth (fun format bytes => (format.writeDepth (q.depthOf f) bytes).toOption) m
  else some m

/-- What the texels hold afterwards, given what the shader makes of the
fragment. -/
def final (m : Texels) (shaded : Option Color) : Option Texels :=
  match q.barrier? f m with
  | some gate =>
    match gate.update with
    | some op => q.updateStencil f (q.storedStencil f m) op m
    | none => some m
  | none =>
    match shaded with
    | none => some m
    | some color => do
      let blended ← q.blendColor f color m
      let passed ← q.updateStencil f (q.storedStencil f m) (q.face f).passOp blended
      q.storeDepth f passed

end Scene

end PixelPipeline
