import PixelPipeline.Proofs.Context.Reachable
import PixelPipeline.Proofs.Draw.Row

/-!
# Fragments of reachable contexts

However a context came to be, a fragment that is drawn to existing targets
follows the documented pipeline, and a fragment that ends in a fault changes
nothing.  The memorised unit is the unit of the current state, the formats of
the targets fit, and their surfaces lie inside existing images, because the
context is reachable; what is left to ask for is that the targets were not
destroyed.

* `Reachable.processFragment_follows` — outcome, texels and calls of the shader
  are those of the reference;
* `Reachable.processFragment_fault` — a fault leaves all resources as they were.
-/

namespace PixelPipeline

variable {σ : Type}

/-- The shader that also counts how often it is asked. -/
def Shader.counted (shader : Shader σ) : Shader (σ × Nat) where
  shade f textures memory :=
    let answer := shader.shade f textures memory.1
    (answer.1, answer.2, memory.2 + 1)

namespace RenderContext

open Scene

variable {c : RenderContext} {f : Fragment}

/-- The surfaces of all targets exist. -/
def TargetsLive (c : RenderContext) : Prop :=
  ∀ h ∈ c.targets.bound, (c.resources.surfaces.get? h).isSome

instance (c : RenderContext) : Decidable c.TargetsLive :=
  inferInstanceAs (Decidable (∀ h ∈ c.targets.bound, _))

/-- The scene has the surfaces of the targets that exist. -/
theorem scene_surfaces (c : RenderContext) :
    c.scene.surfaces = c.targets.bound.filterMap c.resources.surfaces.get? := by
  have hpart : ∀ target : Option (Handle .surface),
      (target >>= c.resources.surfaces.get?).toList
        = target.toList.filterMap c.resources.surfaces.get? := by
    intro target
    cases target with
    | none => rfl
    | some h =>
      simp only [Option.bind_eq_bind, Option.bind_some, Option.toList_some]
      cases hget : c.resources.surfaces.get? h with
      | none => rw [List.filterMap_cons_none hget]; rfl
      | some s => rw [List.filterMap_cons_some hget]; rfl
  unfold Scene.surfaces Targets.bound scene
  simp only [hpart, List.filterMap_append]

/-- A target that was accepted shows a texel under a fragment that is inside. -/
theorem aims_of_suits {fits : Format → Bool} {target : Option (Handle .surface)}
    (hvalid : c.resources.Valid) (hsuits : ∀ h, target = some h → c.resources.Suits fits h)
    (hlive : c.TargetsLive)
    (hbound : ∀ h, target = some h → h ∈ c.targets.bound)
    (hinside : 0 ≤ f.x ∧ 0 ≤ f.y ∧ ∀ s ∈ c.scene.surfaces, (s.spot? f.x f.y).isSome) :
    Stage.Aims c.resources fits f target (target >>= c.resources.surfaces.get?) := by
  cases target with
  | none => exact .unbound
  | some h =>
    obtain ⟨hx, hy, hspots⟩ := hinside
    have hmem := hbound h rfl
    obtain ⟨s, hget⟩ := Option.isSome_iff_exists.mp (hlive h hmem)
    have hshown : s ∈ c.scene.surfaces := by
      rw [scene_surfaces]
      exact List.mem_filterMap.mpr ⟨h, hmem, hget⟩
    obtain ⟨p, hspot⟩ := Option.isSome_iff_exists.mp (hspots s hshown)
    obtain ⟨t, htexel, rfl⟩ := Option.map_eq_some_iff.mp ((s.spot?_eq hx hy).symm.trans hspot)
    have hsited := hvalid.sited hget hspot
    rw [Option.bind_eq_bind, Option.bind_some, hget]
    exact .bound hget htexel hspot hsited ((hsuits h rfl).format s hget)

/-- A coherent context stages its own scene. -/
theorem Coherent.staged (hcoherent : c.Coherent) (hlive : c.TargetsLive) :
    c.stage.Staged c.resources c.scene f where
  state := rfl
  surfaces := c.scene_surfaces
  live h hmem := Option.isSome_iff_exists.mp (hlive h hmem)
  aimed hopen := by
    have hinside := Stage.inside_of_entrance hopen
    have haims : ∀ {fits : Format → Bool} {target : Option (Handle .surface)},
        (∀ h, target = some h → c.resources.Suits fits h) →
        (∀ h, target = some h → h ∈ c.targets.bound) →
        Stage.Aims c.resources fits f target (target >>= c.resources.surfaces.get?) :=
      fun hsuits hbound => aims_of_suits hcoherent.resources hsuits hlive hbound hinside
    exact {
      state := rfl
      color := haims hcoherent.color fun h (htarget : c.targets.color = some h) => by
        simp [Targets.bound, htarget]
      depth := haims hcoherent.depth fun h (htarget : c.targets.depth = some h) => by
        simp [Targets.bound, htarget]
      stencil := haims hcoherent.stencil fun h (htarget : c.targets.stencil = some h) => by
        simp [Targets.bound, htarget] }

/-! ## One pixel -/

/-- A colour image and an image of depth and stencil, of one pixel each. -/
def pixelImages : Arena .image Image :=
  ⟨#[⟨1, some ⟨.d2 .rgba8Unorm 1 1, #[0, 0, 0, 0]⟩⟩,
    ⟨1, some ⟨.d2 .d24UnormS8Uint 1 1, #[0, 0, 0, 0]⟩⟩], []⟩

/-- A surface of either image. -/
def pixelSurfaces : Arena .surface Surface :=
  ⟨#[⟨1, some ⟨⟨1, 1⟩, .rgba8Unorm, 0, 0, 1, 1⟩⟩,
    ⟨1, some ⟨⟨2, 1⟩, .d24UnormS8Uint, 0, 0, 1, 1⟩⟩], []⟩

/-- A context that draws to one pixel: a colour, and a depth that shares its texel
with a stencil value, which is replaced. -/
def pixel : RenderContext where
  settings := ⟨1, 1, 1, false⟩
  resources := ⟨pixelImages, .empty, .empty, pixelSurfaces⟩
  units := .create 1
  cache := .create (.new false) 1 1
  targets := ⟨some ⟨1, 1⟩, some ⟨2, 1⟩, some ⟨2, 1⟩⟩
  current := none
  state := { (default : RenderState) with
    depthStencil := ⟨true, true, .greaterEqual, true,
      ⟨.always, .keep, .keep, .replace, 0xff, 0xff⟩, default⟩
    stencilReference := ⟨7, 0⟩ }

/-- The context of one pixel can come to be. -/
theorem pixel_reachable : pixel.Reachable :=
  reachable_of_setup
    [.createImage 4 (.d2 .rgba8Unorm 1 1), .createImage 4 (.d2 .d24UnormS8Uint 1 1),
      .createSurface ⟨1, 1⟩ 0 0, .createSurface ⟨2, 1⟩ 0 0] rfl rfl rfl rfl rfl

/-- A pixel in the middle of the depth range. -/
def pixelFragment : Fragment := ⟨0, 0, .half, true, []⟩

/-- Everything is violet. -/
def violet : Shader Unit := .ofFunction fun _ _ => .ok (some (.mk .one .zero .one .one))

/-- The same context after its target of depth and stencil was destroyed. -/
def torn : RenderContext := { pixel with resources := pixel.resources.destroySurface ⟨2, 1⟩ }

/-- So can the one whose target was destroyed. -/
theorem torn_reachable : torn.Reachable :=
  pixel_reachable.step (.change (.destroySurface ⟨2, 1⟩))

/-! ## Processing -/

/-- Fragments of a coherent context are processed with the unit of its state. -/
theorem Coherent.processFragment_eq (hcoherent : c.Coherent) (shader : Shader σ) (f : Fragment)
    (memory : σ) :
    ∃ u cache current log, BlendCompiler.unitOf c.state.pipelineState = .ok u ∧
      c.processFragment shader f memory =
        let answer := c.stage.run u shader f ⟨c.resources, memory⟩
        ⟨answer.1, ⟨{ c with resources := answer.2.resources, cache, current },
          answer.2.memory⟩, log⟩ := by
  obtain ⟨h, u, cache, current, log, hunit, hstate, -⟩ := hcoherent.currentUnit
  exact ⟨u, cache, current, _, hstate, processFragment_of_currentUnit hunit shader f memory⟩

/-- What the reference says of a coherent context's fragment, in one equation. -/
theorem Coherent.processFragment_draws (hcoherent : c.Coherent) (hlive : c.TargetsLive)
    (shader : Shader σ) (f : Fragment) (memory : σ) {shaded : Option Color}
    (hshaded : (shader.shade f c.textures memory).1 = .ok shaded) :
    ∃ m after cache current log, c.scene.final f c.resources.texels shaded = some m ∧
      c.resources.Draws c.scene.images m after ∧
      c.processFragment shader f memory = ⟨.ok (c.scene.outcome f c.resources.texels shaded),
        ⟨{ c with resources := after, cache, current },
          if (c.scene.barrier? f c.resources.texels).isNone then
            (shader.shade f c.textures memory).2 else memory⟩, log⟩ := by
  obtain ⟨u, cache, current, log, hunit, hprocess⟩ := hcoherent.processFragment_eq shader f memory
  obtain ⟨m, after, hm, hdraws, hrun⟩ :=
    Stage.run_follows (hcoherent.staged hlive) hunit hshaded
  refine ⟨m, after, cache, current, log, hm, hdraws, ?_⟩
  rw [hprocess, hrun]
  rfl

/-- **A fragment follows the documented pipeline.**  In a reachable context with
existing targets, a fragment whose shader does not fail ends as the reference
says, and leaves the texels that the reference says; no other image changes.  The
shader is asked at most once, namely when every stage before it lets the fragment
through. -/
theorem Reachable.processFragment_follows (hreachable : c.Reachable) (hlive : c.TargetsLive)
    (shader : Shader σ) (f : Fragment) (memory : σ)
    {shaded : Option Color} (hshaded : (shader.shade f c.textures memory).1 = .ok shaded) :
    let texels := c.resources.texels
    let reply := c.processFragment shader f memory
    let after := reply.state.context.resources
    reply.result = .ok (c.scene.outcome f texels shaded) ∧
      c.scene.final f texels shaded = some after.texels ∧
      c.resources.Redrawn after ∧
      (∀ h, h ∉ c.scene.images → after.images.get? h = c.resources.images.get? h) ∧
      reply.state.memory = (if (c.scene.barrier? f texels).isNone then
        (shader.shade f c.textures memory).2 else memory) ∧
      ∀ calls, (c.processFragment shader.counted f (memory, calls)).state.memory.2
        = if (c.scene.barrier? f texels).isNone then calls + 1 else calls := by
  obtain ⟨m, after, cache, current, log, hm, hdraws, hprocess⟩ :=
    hreachable.coherent.processFragment_draws hlive shader f memory hshaded
  rw [hprocess]
  refine ⟨rfl, hdraws.texels ▸ hm, hdraws.redrawn, hdraws.others, rfl, fun calls => ?_⟩
  obtain ⟨_, _, _, _, _, -, -, hcounted⟩ :=
    hreachable.coherent.processFragment_draws hlive shader.counted f (memory, calls) hshaded
  rw [hcounted]
  cases (c.scene.barrier? f c.resources.texels).isNone with
  | true => rfl
  | false => rfl

/-- A violet fragment of the one pixel is written as the reference says. -/
theorem processFragment_follows_violet :
    let reply := pixel.processFragment violet pixelFragment ()
    let texels := reply.state.context.resources.texels
    pixel.TargetsLive ∧ reply.result = .ok .written ∧
      texels ⟨1, 1⟩ ⟨0, 0, 0, 0, 0⟩ = some [255, 0, 255, 255] ∧
      texels ⟨2, 1⟩ ⟨0, 0, 0, 0, 0⟩ = some [0, 0, 128, 7] := by
  have hlive : pixel.TargetsLive := by decide
  obtain ⟨hresult, hfinal, -⟩ :=
    pixel_reachable.processFragment_follows hlive violet pixelFragment () rfl
  have houtcome : pixel.scene.outcome pixelFragment pixel.resources.texels
      (some (.mk .one .zero .one .one)) = .written := by decide +kernel
  have htexels : (pixel.scene.final pixelFragment pixel.resources.texels
        (some (.mk .one .zero .one .one))).map
        (fun m => (m ⟨1, 1⟩ ⟨0, 0, 0, 0, 0⟩, m ⟨2, 1⟩ ⟨0, 0, 0, 0, 0⟩))
      = some (some [255, 0, 255, 255], some [0, 0, 128, 7]) := by decide +kernel
  rw [hfinal, Option.map_some] at htexels
  obtain ⟨hcolor, hdepth⟩ := Prod.mk.inj (Option.some.inj htexels)
  exact ⟨hlive, hresult.trans (congrArg _ houtcome), hcolor, hdepth⟩

/-- **A fault changes nothing.**  Whatever was done to a context before, and
whatever the shader does, a fragment that ends in a fault leaves every resource,
and so every byte of every image, as it was. -/
theorem Reachable.processFragment_fault (hreachable : c.Reachable)
    (shader : Shader σ) (f : Fragment) (memory : σ) {fault : Fault}
    (hfault : (c.processFragment shader f memory).result = .error fault) :
    (c.processFragment shader f memory).state.context.resources = c.resources := by
  have hcoherent := hreachable.coherent
  obtain ⟨u, cache, current, log, hunit, hprocess⟩ := hcoherent.processFragment_eq shader f memory
  rw [hprocess] at hfault ⊢
  refine Stage.run_error (q := c.scene) (fun hlive => ?_) hunit hfault
  exact hcoherent.staged fun h hmem => Option.isSome_iff_exists.mpr (hlive h hmem)

/-- A fragment whose target was destroyed ends in a fault and leaves every byte. -/
theorem processFragment_fault_destroyed :
    let reply := torn.processFragment violet pixelFragment ()
    reply.result = .error (.invalidHandle .surface) ∧
      reply.state.context.resources = torn.resources := by
  have hqualify : torn.stage.qualify torn.resources pixelFragment
      = .error (.invalidHandle .surface) := rfl
  have hresult : (torn.processFragment violet pixelFragment ()).result
      = .error (.invalidHandle .surface) := by
    obtain ⟨u, cache, current, log, -, hprocess⟩ :=
      torn_reachable.coherent.processFragment_eq violet pixelFragment ()
    rw [hprocess]
    unfold Stage.run
    rw [hqualify]
  exact ⟨hresult, torn_reachable.processFragment_fault violet pixelFragment () hresult⟩

end RenderContext

end PixelPipeline
