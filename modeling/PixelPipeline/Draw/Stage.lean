import PixelPipeline.Blend.Unit
import PixelPipeline.Fragment
import PixelPipeline.State.Render

/-!
# One fragment

A fragment passes through a fixed row of stages, and the first that turns it
away decides its outcome:

1. the rasterizer switch, the depth range, the scissor, the bounds of the
   targets;
2. the stencil test and the depth test, which read the targets;
3. the shader;
4. blending and the writes: colour, then stencil, then depth.

Only a failed stencil or depth test and the last stage write anything.  A test
takes part only when it is switched on and its target is bound.  A fault keeps
the texels written before it, so every writing step answers with the resources
in either case.
-/

namespace PixelPipeline

/-- What stays fixed while a fragment is processed. -/
structure Stage where
  state : RenderState
  targets : Targets
  units : TextureUnits

/-- A fragment that lies inside every target. -/
structure Candidate where
  x : Nat
  y : Nat
  /-- The depth after the depth range was applied. -/
  z : Binary32

/-- The answer of the stencil and depth tests. -/
inductive Verdict where
  | pass
  /-- Turned away, with the update of the stencil value. -/
  | fail (reason : DiscardReason) (update : StencilOp)
  deriving DecidableEq, Repr

namespace Stage

/-! ## Admission -/

/-- The depth of a fragment that the depth range lets through. -/
def rangedDepth? (g : Stage) (z : Binary32) : Option Binary32 :=
  if g.state.depthRange.contains z then some z
  else if g.state.rasterizer.depthClamp then some (g.state.depthRange.clamp z)
  else none

/-- Whether the scissor turns a position away. -/
def scissored (g : Stage) (x y : Int) : Bool :=
  g.state.rasterizer.scissorTest && !g.state.scissor.contains x y

/-- Whether a position lies inside all of the surfaces, asked in order. -/
def insideAll (r : Resources) (x y : Nat) : List (Handle .surface) → Except Fault Bool
  | [] => .ok true
  | h :: rest => do
    let surface ← r.surface h
    if (surface.texelCoord? x y).isSome then insideAll r x y rest else return false

/-- The candidate of a fragment, or why it is turned away. -/
def qualify (g : Stage) (r : Resources) (f : Fragment) :
    Except Fault (Except DiscardReason Candidate) :=
  if g.state.rasterizer.discard then .ok (.error .rasterizerDiscard)
  else
    match g.rangedDepth? f.z with
    | none => .ok (.error .depthRange)
    | some z =>
      if g.scissored f.x f.y then .ok (.error .scissor)
      else if f.x < 0 ∨ f.y < 0 then .ok (.error .outOfBounds)
      else do
        let inside ← insideAll r f.x.toNat f.y.toNat g.targets.bound
        return if inside then .ok ⟨f.x.toNat, f.y.toNat, z⟩ else .error .outOfBounds

/-! ## Tests -/

/-- Reads a value of a surface's texel. -/
def readTexel {α : Type} (r : Resources) (h : Handle .surface) (aspect : Aspect) (x y : Nat)
    (read : Format → Bytes → Option α) : Except Fault α := do
  let surface ← r.surface h
  match (← r.surfaceTexel h x y) >>= read surface.format with
  | some value => return value
  | none => throw (.invalidImage (.missingTexel aspect x y))

/-- The stored stencil value at a window position. -/
def stencilAt (r : Resources) (h : Handle .surface) (x y : Nat) : Except Fault UInt8 :=
  readTexel r h .stencil x y Format.readStencil?

/-- The stored depth at a window position. -/
def depthAt (r : Resources) (h : Handle .surface) (x y : Nat) : Except Fault Binary32 :=
  readTexel r h .depth x y Format.readDepth?

/-- The surface that takes part in the stencil test. -/
def stencilTarget? (g : Stage) : Option (Handle .surface) :=
  if g.state.depthStencil.stencilTest then g.targets.stencil else none

/-- The surface that takes part in the depth test. -/
def depthTarget? (g : Stage) : Option (Handle .surface) :=
  if g.state.depthStencil.depthTest then g.targets.depth else none

/-- The stencil value that takes part in the test. -/
def storedStencil (g : Stage) (r : Resources) (c : Candidate) : Except Fault (Option UInt8) :=
  match g.stencilTarget? with
  | none => .ok none
  | some h => (stencilAt r h c.x c.y).map some

/-- Whether the depth test lets the candidate through. -/
def depthPasses (g : Stage) (r : Resources) (c : Candidate) : Except Fault Bool :=
  match g.depthTarget? with
  | none => .ok true
  | some h => (depthAt r h c.x c.y).map (g.state.depthStencil.depthCompare.testDepth c.z)

/-- The stencil configuration of a fragment. -/
def face (g : Stage) (f : Fragment) : StencilFace := g.state.depthStencil.face f.frontFacing

/-- The stencil reference of a fragment. -/
def reference (g : Stage) (f : Fragment) : UInt8 := g.state.stencilReference.get f.frontFacing

/-- The answer of the tests: stencil first, then depth. -/
def test (g : Stage) (r : Resources) (f : Fragment) (c : Candidate) (stored : Option UInt8) :
    Except Fault Verdict :=
  let face := g.face f
  if stored.any fun value => !face.accepts (g.reference f) value then
    .ok (.fail .stencilTest face.failOp)
  else do
    return if ← g.depthPasses r c then .pass else .fail .depthTest face.depthFailOp

/-! ## Writes -/

/-- A step that writes texels and may fail; what was written stays. -/
abbrev Writing : Type → Type := ExceptT Fault (StateM Resources)

/-- Replaces the texel of a surface at a window position. -/
def updateTexel {α : Type} (h : Handle .surface) (aspect : Aspect) (x y : Nat)
    (update : Format → Bytes → Except Fault (Bytes × α)) : Writing α := do
  let r ← getThe Resources
  let surface ← r.surface h
  let some bytes ← r.surfaceTexel h x y | throw (.invalidImage (.missingTexel aspect x y))
  let (bytes, answer) ← update surface.format bytes
  modifyThe Resources fun r => r.setSurfaceTexel surface x y bytes
  return answer

/-- Updates the stencil value that took part in the test; a value that does not
change is not written. -/
def updateStencil (g : Stage) (f : Fragment) (c : Candidate) (stored : Option UInt8)
    (op : StencilOp) : Writing Unit :=
  match g.stencilTarget?, stored with
  | some h, some value =>
    let updated := op.apply value (g.reference f) (g.face f).writeMask
    if updated = value then return ()
    else updateTexel h .stencil c.x c.y fun format bytes =>
      (format.writeStencil updated bytes).map fun bytes => (bytes, ())
  | _, _ => return ()

/-- What the blend unit receives. -/
def blendInput (g : Stage) (c : Candidate) (shaded : Color) : BlendInput :=
  ⟨shaded, c.z, g.state.blendConstant⟩

/-- Blends into a colour texel; the answer is the depth that the unit leaves. -/
def blendTexel (g : Stage) (unit : BlendUnit) (c : Candidate) (shaded : Color) (format : Format)
    (bytes : Bytes) : Except Fault (Bytes × Binary32) := do
  let some color := format.decode? bytes
    | throw (.invalidImage (.missingTexel .color c.x c.y))
  let pixel := unit.invoke ⟨color, c.z⟩ (g.blendInput c shaded)
  let bytes ← format.encode pixel.color unit.state.attachment.colorMask bytes
  return (bytes, pixel.depth)

/-- Blends into the colour target, or into nothing if there is none. -/
def writeColor (g : Stage) (unit : BlendUnit) (c : Candidate) (shaded : Color) :
    Writing Binary32 :=
  match g.targets.color with
  | some h => updateTexel h .color c.x c.y (g.blendTexel unit c shaded)
  | none => return (unit.invoke ⟨Color.transparent, c.z⟩ (g.blendInput c shaded)).depth

/-- Stores the depth if depth writes are on and there is a depth target. -/
def writeDepth (g : Stage) (unit : BlendUnit) (c : Candidate) (depth : Binary32) : Writing Unit :=
  match g.targets.depth with
  | some h =>
    if unit.state.depthWrite then
      updateTexel h .depth c.x c.y fun format bytes =>
        (format.writeDepth depth bytes).map fun bytes => (bytes, ())
    else return ()
  | none => return ()

/-- All writes of a fragment that passed every stage. -/
def writePixel (g : Stage) (unit : BlendUnit) (f : Fragment) (c : Candidate)
    (stored : Option UInt8) (shaded : Color) : Writing Unit := do
  let depth ← g.writeColor unit c shaded
  g.updateStencil f c stored (g.face f).passOp
  g.writeDepth unit c depth

/-! ## The whole row -/

variable {σ : Type}

/-- The resources and the shader's memory. -/
structure Surroundings (σ : Type) where
  resources : Resources
  memory : σ

/-- Performs writes and reports an outcome. -/
def afterWrites (s : Surroundings σ) (writes : Writing Unit) (outcome : FragmentOutcome) :
    Except Fault FragmentOutcome × Surroundings σ :=
  let (result, resources) := writes.run.run s.resources
  (result.map fun _ => outcome, { s with resources })

/-- Shades a candidate that passed the tests, and writes it. -/
def shadeAndWrite (g : Stage) (unit : BlendUnit) (shader : Shader σ) (f : Fragment) (c : Candidate)
    (stored : Option UInt8) (s : Surroundings σ) :
    Except Fault FragmentOutcome × Surroundings σ :=
  let (answer, memory) := shader.shade f ⟨s.resources, g.units⟩ s.memory
  let s := { s with memory }
  match answer with
  | .error fault => (.error fault, s)
  | .ok none => (.ok (.discarded .shader), s)
  | .ok (some color) =>
    afterWrites s (g.writePixel unit f c stored color.clampUnit) .written

/-- The tests of a fragment: the stencil value that takes part, and the
answer. -/
def judge (g : Stage) (r : Resources) (f : Fragment) (c : Candidate) :
    Except Fault (Option UInt8 × Verdict) := do
  let stored ← g.storedStencil r c
  return (stored, ← g.test r f c stored)

/-- Processes one fragment. -/
def run (g : Stage) (unit : BlendUnit) (shader : Shader σ) (f : Fragment) (s : Surroundings σ) :
    Except Fault FragmentOutcome × Surroundings σ :=
  match g.qualify s.resources f with
  | .error fault => (.error fault, s)
  | .ok (.error reason) => (.ok (.discarded reason), s)
  | .ok (.ok c) =>
    match g.judge s.resources f c with
    | .error fault => (.error fault, s)
    | .ok (stored, .fail reason op) =>
      afterWrites s (g.updateStencil f c stored op) (.discarded reason)
    | .ok (stored, .pass) => g.shadeAndWrite unit shader f c stored s

/-- Processes fragments in order up to the first fault, counting outcomes. -/
def runAll (g : Stage) (unit : BlendUnit) (shader : Shader σ) :
    List Fragment → DrawStats → Surroundings σ → Except Fault DrawStats × Surroundings σ
  | [], stats, s => (.ok stats, s)
  | f :: rest, stats, s =>
    match g.run unit shader f s with
    | (.error fault, s) => (.error fault, s)
    | (.ok outcome, s) => g.runAll unit shader rest (stats.record outcome) s

end Stage

end PixelPipeline
