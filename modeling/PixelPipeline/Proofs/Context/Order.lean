import PixelPipeline.Proofs.Context.Fragments
import PixelPipeline.Proofs.Draw.Order

/-!
# The order of the fragments of a draw

Fragments that lie at different positions can be drawn in any order, if the
shader looks at nothing that is drawn to.  Two targets may share an image, and
even a texel; that a level of an image has one height keeps different positions
apart (`Coherent.even`).

* `Reachable.draw_perm` — draws of the same fragments in another order leave the
  same bytes of every image, and the same counts.
-/

namespace PixelPipeline.RenderContext

open Scene

variable {σ : Type} {c : RenderContext} {shader : Shader σ} {shade : Fragment → Option Color}

/-- The surfaces that are drawn to lie in live images. -/
theorem Coherent.drawn (hcoherent : c.Coherent) {s : Surface} (hmem : s ∈ c.scene.surfaces) :
    ∃ i, c.resources.images.get? s.image = some i ∧ s.Of i.desc := by
  rw [scene_surfaces] at hmem
  obtain ⟨h, -, hget⟩ := List.mem_filterMap.mp hmem
  exact hcoherent.resources.drawn h s hget

/-- Surfaces of one level of an image have its height. -/
theorem Coherent.even (hcoherent : c.Coherent) : c.scene.Even := by
  intro s hs s' hs' himage hlevel
  obtain ⟨i, hget, hof⟩ := hcoherent.drawn hs
  obtain ⟨i', hget', hof'⟩ := hcoherent.drawn hs'
  obtain rfl : i = i' := Option.some.inj (hget.symm.trans (himage ▸ hget'))
  rw [hof.height, hof'.height, hlevel]

/-- Fragments of a coherent context are drawn with the unit of its state. -/
theorem Coherent.draw_eq (hcoherent : c.Coherent) (shader : Shader σ) (fragments : List Fragment)
    (memory : σ) :
    ∃ u cache current log, BlendCompiler.unitOf c.state.pipelineState = .ok u ∧
      c.draw shader fragments memory =
        let row := c.stage.runAll u shader fragments default ⟨c.resources, memory⟩
        ⟨row.1, ⟨{ c with resources := row.2.resources, cache, current }, row.2.memory⟩, log⟩ := by
  obtain ⟨h, u, cache, current, log, hunit, hstate, -⟩ := hcoherent.currentUnit
  unfold draw
  rw [hunit]
  exact ⟨u, cache, current, _, hstate, rfl⟩

/-- A draw is a fold of the reference. -/
theorem Coherent.draw_advances (hcoherent : c.Coherent) (hlive : c.TargetsLive)
    (hpaints : shader.Paints c.scene.images c.textures shade)
    (fragments : List Fragment) (memory : σ) :
    let row := fragments.foldl (c.scene.advance shade) (c.resources.texels, default)
    let drawn := c.draw shader fragments memory
    drawn.result = .ok row.2 ∧
      c.resources.Draws c.scene.images row.1 drawn.state.context.resources := by
  obtain ⟨u, cache, current, log, hunit, hdraw⟩ := hcoherent.draw_eq shader fragments memory
  obtain ⟨r', memory', hrow, hdraws⟩ := Stage.runAll_advances
    (fun f => hcoherent.staged hlive) hunit hpaints fragments default memory
  rw [hdraw, hrow]
  exact ⟨rfl, hdraws⟩

/-- **Fragments of different positions can be drawn in any order.**  In a reachable
context with existing targets, and with a shader that never fails and looks at no
more than the fragment and what is not drawn to, two draws of the same fragments in
different orders both end, with the same counts, and leave the same bytes of every
image. -/
theorem Reachable.draw_perm (hreachable : c.Reachable) (hlive : c.TargetsLive)
    (hpaints : shader.Paints c.scene.images c.textures shade)
    {fragments fragments' : List Fragment} (hperm : fragments.Perm fragments')
    (hapart : fragments.Pairwise Fragment.Apart) (memory memory' : σ) :
    let drawn := c.draw shader fragments memory
    let drawn' := c.draw shader fragments' memory'
    (∃ stats, drawn.result = .ok stats ∧ drawn'.result = .ok stats) ∧
      ∀ h, drawn.state.context.resources.images.get? h
        = drawn'.state.context.resources.images.get? h := by
  have hcoherent := hreachable.coherent
  obtain ⟨hresult, hdraws⟩ := hcoherent.draw_advances hlive hpaints fragments memory
  obtain ⟨hresult', hdraws'⟩ := hcoherent.draw_advances hlive hpaints fragments' memory'
  rw [← advances_perm hcoherent.even hperm hapart] at hresult' hdraws'
  refine ⟨⟨_, hresult, hresult'⟩, fun h => ?_⟩
  exact hdraws.images_eq hcoherent.resources hdraws' h

/-! ## Two pixels -/

/-- A context that draws to a colour image of two pixels. -/
def pair : RenderContext where
  settings := ⟨1, 1, 1, false⟩
  resources := ⟨⟨#[⟨1, some ⟨.d2 .rgba8Unorm 2 1, #[0, 0, 0, 0, 0, 0, 0, 0]⟩⟩], []⟩, .empty,
    .empty, ⟨#[⟨1, some ⟨⟨1, 1⟩, .rgba8Unorm, 0, 0, 2, 1⟩⟩], []⟩⟩
  units := .create 1
  cache := .create (.new false) 1 1
  targets := ⟨some ⟨1, 1⟩, none, none⟩
  current := none
  state := default

/-- The context of two pixels can come to be. -/
theorem pair_reachable : pair.Reachable :=
  reachable_of_setup
    [.createImage 8 (.d2 .rgba8Unorm 2 1), .createSurface ⟨1, 1⟩ 0 0] rfl rfl rfl rfl rfl

/-- Violet on the left and yellow on the right. -/
def sides (f : Fragment) : Option Color :=
  some (if f.x = 0 then .mk .one .zero .one .one else .mk .one .one .zero .one)

/-- The shader of the sides. -/
def sided : Shader Unit := .ofFunction fun f _ => .ok (sides f)

/-- Both pixels, the left one first. -/
def leftToRight : List Fragment := [⟨0, 0, .half, true, []⟩, ⟨1, 0, .half, true, []⟩]

/-- Two pixels drawn from right to left are those drawn from left to right. -/
theorem draw_perm_sided :
    let drawn := pair.draw sided leftToRight.reverse ()
    pair.TargetsLive ∧ sided.Paints pair.scene.images pair.textures sides ∧
      leftToRight.Pairwise Fragment.Apart ∧ drawn.result = .ok ⟨2, 0⟩ ∧
      (drawn.state.context.resources.images.get? ⟨1, 1⟩).map Image.data
        = some #[255, 0, 255, 255, 255, 255, 0, 255] := by
  have hlive : pair.TargetsLive := by decide
  have hpaints : sided.Paints pair.scene.images pair.textures sides := fun _ _ _ _ => rfl
  have hapart : leftToRight.Pairwise Fragment.Apart := by decide
  obtain ⟨⟨stats, hresult, hresult'⟩, himages⟩ := pair_reachable.draw_perm hlive hpaints
    leftToRight.reverse_perm.symm hapart () ()
  have hstats : (pair.draw sided leftToRight ()).result = .ok ⟨2, 0⟩ := by decide +kernel
  have hdata : ((pair.draw sided leftToRight ()).state.context.resources.images.get? ⟨1, 1⟩).map
      Image.data = some #[255, 0, 255, 255, 255, 255, 0, 255] := by decide +kernel
  refine ⟨hlive, hpaints, hapart, ?_, ?_⟩
  · rw [hresult', ← hresult, hstats]
  · rw [← himages, hdata]

end PixelPipeline.RenderContext
