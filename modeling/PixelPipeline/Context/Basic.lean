import PixelPipeline.Blend.Cache
import PixelPipeline.Draw.Stage

/-!
# Render contexts

A context holds the resources, the render state, the bound targets and textures,
and the cache of blend units.  It remembers the unit it resolved last and uses
it again while the state is unchanged and the unit is still cached.
-/

namespace PixelPipeline

/-- All mutable state of a renderer. -/
structure RenderContext where
  settings : Settings
  resources : Resources
  units : TextureUnits
  cache : UnitCache BlendCompiler
  targets : Targets
  /-- The state resolved last and its unit. -/
  current : Option (PipelineState × UnitHandle)
  state : RenderState

namespace RenderContext

/-- A context without resources. -/
def create (settings : Settings) : Except Fault RenderContext := do
  let cache ← UnitCache.ofSettings settings
  return {
    settings
    resources := .empty
    units := .create settings.textureUnits
    cache
    targets := default
    current := none
    state := default }

/-! ## Targets and textures -/

/-- Accepts the absence of a target, or a live surface with a fitting format. -/
def checkTarget (c : RenderContext) (target : Option (Handle .surface)) (aspect : Aspect)
    (fits : Format → Bool) : Except Fault Unit :=
  match target with
  | none => .ok ()
  | some h => do
    let surface ← c.resources.surface h
    if fits surface.format then return () else throw (.unsupportedTarget surface.format aspect)

/-- Chooses the colour target. -/
def setColorTarget (c : RenderContext) (target : Option (Handle .surface)) :
    Except Fault RenderContext := do
  c.checkTarget target .color Format.isColorRenderable
  return { c with targets := { c.targets with color := target } }

/-- Chooses the depth target. -/
def setDepthTarget (c : RenderContext) (target : Option (Handle .surface)) :
    Except Fault RenderContext := do
  c.checkTarget target .depth Format.hasDepth
  return { c with targets := { c.targets with depth := target } }

/-- Chooses the stencil target. -/
def setStencilTarget (c : RenderContext) (target : Option (Handle .surface)) :
    Except Fault RenderContext := do
  c.checkTarget target .stencil Format.hasStencil
  return { c with targets := { c.targets with stencil := target } }

/-- Binds a live view and a live sampler to a texture unit. -/
def bindTexture (c : RenderContext) (unit : Nat) (view : Handle .view)
    (sampler : Handle .sampler) : Except Fault RenderContext := do
  let _ ← c.resources.view view
  let _ ← c.resources.sampler sampler
  return { c with units := ← c.units.set unit (some ⟨view, sampler⟩) }

/-- Unbinds a texture unit. -/
def unbindTexture (c : RenderContext) (unit : Nat) : Except Fault RenderContext := do
  return { c with units := ← c.units.set unit none }

/-- Read access to the bound textures. -/
def textures (c : RenderContext) : Textures := ⟨c.resources, c.units⟩

/-! ## The blend unit -/

/-- The unit resolved last, if it serves the current state and is still
cached. -/
def remembered? (c : RenderContext) : Option (UnitHandle × BlendUnit) :=
  match c.current with
  | some (s, h) =>
    if s = c.state.pipelineState then (c.cache.unit? h).map fun u => (h, u) else none
  | none => none

/-- Resolves the unit of the current state through the cache. -/
def resolveUnit (c : RenderContext) : Reply RenderContext (UnitHandle × BlendUnit) :=
  let s := c.state.pipelineState
  ((c.cache.ensureUnit s).mapState fun cache => { c with cache }).andThen fun found c =>
    .quiet (.ok found) { c with current := some (s, found.1) }

/-- The unit of the current state. -/
def currentUnit (c : RenderContext) : Reply RenderContext (UnitHandle × BlendUnit) :=
  match c.remembered? with
  | some found => .quiet (.ok found) c
  | none => c.resolveUnit

/-- The handle of the current state's unit, compiled on first use. -/
def ensureCompiled (c : RenderContext) : Reply RenderContext UnitHandle :=
  c.currentUnit.andThen fun found c => .quiet (.ok found.1) c

/-! ## Fragments -/

variable {σ : Type}

/-- What stays fixed while the context processes fragments. -/
def stage (c : RenderContext) : Stage := ⟨c.state, c.targets, c.units⟩

/-- A context and the memory of a shader. -/
structure Shading (σ : Type) where
  context : RenderContext
  memory : σ

/-- Processes fragments of a context by a step on its resources. -/
def onResources {α : Type} (c : RenderContext) (memory : σ)
    (step : Stage → Stage.Surroundings σ → Except Fault α × Stage.Surroundings σ) :
    Reply (Shading σ) α :=
  let (result, s) := step c.stage ⟨c.resources, memory⟩
  .quiet result ⟨{ c with resources := s.resources }, s.memory⟩

/-- Processes one fragment. -/
def processFragment (c : RenderContext) (shader : Shader σ) (f : Fragment) (memory : σ) :
    Reply (Shading σ) FragmentOutcome :=
  (c.currentUnit.mapState (Shading.mk · memory)).andThen fun found s =>
    onResources s.context s.memory fun g => g.run found.2 shader f

/-- The record of a draw whose unit could not be resolved. -/
def rejectedRecord (fragments : List Fragment) (fault : Fault) : LogRecord :=
  ⟨.warn, s!"draw of {fragments.length} fragments rejected: " ++ fault.message⟩

/-- The record of a finished draw. -/
def drawnRecord (h : UnitHandle) (stats : DrawStats) : LogRecord :=
  ⟨.trace, "draw with unit UnitHandle(" ++ h.text
    ++ s!"): {stats.written} written, {stats.discarded} discarded"⟩

/-- Processes fragments in order with one unit; the first fault ends the draw. -/
def draw (c : RenderContext) (shader : Shader σ) (fragments : List Fragment) (memory : σ) :
    Reply (Shading σ) DrawStats :=
  let resolved := c.currentUnit
  match resolved.result with
  | .error fault =>
    ⟨.error fault, ⟨resolved.state, memory⟩, resolved.log ++ [rejectedRecord fragments fault]⟩
  | .ok (h, unit) =>
    let drawn := onResources resolved.state memory fun g =>
      g.runAll unit shader fragments default
    let log := drawn.result.toOption.elim [] fun stats => [drawnRecord h stats]
    ⟨drawn.result, drawn.state, resolved.log ++ log⟩

end RenderContext

end PixelPipeline
