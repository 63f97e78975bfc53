import PixelPipeline.Proofs.Context.Order
import PixelPipeline.Proofs.Draw.Frame

/-!
# What a fragment leaves alone

Whatever is made of a fragment, in a context that was reached in any way and with any
shader, bytes change only in the texels that the targets show at its position, and in
those only the parts that its outcome may change.

* `Reachable.processFragment_confined` — both, for every image.
-/

namespace PixelPipeline

namespace Scene

/-- The byte stands in a texel that a target shows under the fragment. -/
def Shows (q : Scene) (f : Fragment) (h : Handle .image) (i : Image) (k : Nat) : Prop :=
  ∃ s ∈ q.surfaces, ∃ p offset, s.spot? f.x f.y = some p ∧ p.image = h ∧
    i.texelOffset? p.texel = some offset ∧ offset ≤ k ∧ k < offset + i.desc.format.stride

variable {q : Scene} {f : Fragment} {h : Handle .image} {i i' : Image}

/-- A byte that differs after a fragment stands in a texel that a target shows. -/
theorem shows_of_ne {r r' : Resources} {m : Texels} {shaded : Option Color} {k : Nat}
    (hfinal : q.final f r.texels shaded = some m) (hdraws : r.Draws q.images m r')
    (hvalid : r.Valid) (hget : r.images.get? h = some i) (hget' : r'.images.get? h = some i')
    (hne : i'.data[k]? ≠ i.data[k]?) : q.Shows f h i k := by
  by_cases hmem : h ∈ q.images
  · have hframe : i'.frame = i.frame := by
      have heq := hdraws.redrawn.frame h
      rw [hget, hget'] at heq
      exact Option.some.inj heq
    obtain ⟨t, ht, hstart, hend, htexel⟩ :=
      (hvalid.stored h i hget).exists_texel_ne hframe hne
    have hchanged : m h t ≠ r.texels h t := by
      rw [← hdraws.texels]
      unfold Resources.texels
      rw [hget, hget']
      exact htexel
    have hamong : Spot.Among (q.spots f) h t :=
      Decidable.not_not.mp fun hother => hchanged ((final_local shaded).frame hfinal hother)
    obtain ⟨p, hp, himage, rfl⟩ := hamong
    obtain ⟨s, hs, hspot⟩ := List.mem_filterMap.mp hp
    exact ⟨s, hs, p, i.address p.texel, hspot, himage,
      Image.texelOffset?_eq ht, hstart, hend⟩
  · rw [hdraws.others h hmem, hget] at hget'
    obtain rfl := Option.some.inj hget'
    exact (hne rfl).elim

end Scene

namespace RenderContext

open Scene

variable {σ : Type} {c : RenderContext}

/-- The format of an image. -/
def formatOf (c : RenderContext) (h : Handle .image) : Format :=
  (c.resources.images.get? h).elim default (·.desc.format)

/-- Surfaces that are drawn to have the formats of their images. -/
theorem Coherent.surface_format (hcoherent : c.Coherent) {s : Surface}
    (hmem : s ∈ c.scene.surfaces) : s.format = c.formatOf s.image := by
  obtain ⟨i, himage, hof⟩ := hcoherent.drawn hmem
  unfold formatOf
  rw [himage]
  exact hof.format

/-- A fragment of a coherent context leaves everything as it was, or what the
reference leaves. -/
theorem Coherent.processFragment_settles (hcoherent : c.Coherent)
    (shader : Shader σ) (f : Fragment) (memory : σ) :
    let reply := c.processFragment shader f memory
    let after := reply.state.context.resources
    after = c.resources ∨ ∃ shaded m, c.scene.final f c.resources.texels shaded = some m ∧
      c.resources.Draws c.scene.images m after ∧
      reply.result = .ok (c.scene.outcome f c.resources.texels shaded) := by
  obtain ⟨u, cache, current, log, hunit, hprocess⟩ := hcoherent.processFragment_eq shader f memory
  rw [hprocess]
  refine Stage.run_settles (q := c.scene) (fun hlive => ?_) hunit
  exact hcoherent.staged fun h hmem => Option.isSome_iff_exists.mpr (hlive h hmem)

/-- **A fragment is confined to its own texels and to what its outcome may change.**
Whatever a fragment of a reachable context ends in, and whatever the shader does, no
byte of any image changes outside of the texels that the bound surfaces show at its
position.  If it ends without a fault, then in every texel of every image the channels
that the mask does not select stay, and all of them if the fragment is discarded; the
depth stays if depth writes are off or the fragment is discarded; a stencil value
stays if the stencil test does not take part or was not reached; and bits that the
write mask protects stay in any case. -/
theorem Reachable.processFragment_confined (hreachable : c.Reachable)
    (shader : Shader σ) (f : Fragment) (memory : σ) :
    let reply := c.processFragment shader f memory
    let after := reply.state.context.resources
    c.resources.Redrawn after ∧
      (∀ h i i' k, c.resources.images.get? h = some i → after.images.get? h = some i' →
        i'.data[k]? ≠ i.data[k]? → c.scene.Shows f h i k) ∧
      ∀ outcome, reply.result = .ok outcome →
        ∀ h i t old new, c.resources.images.get? h = some i →
          c.resources.texels h t = some old → after.texels h t = some new →
          c.scene.Confined f outcome i.desc.format old new := by
  have hcoherent := hreachable.coherent
  obtain hkept | ⟨shaded, m, hfinal, hdraws, hresult⟩ :=
    hcoherent.processFragment_settles shader f memory
  · simp only
    rw [hkept]
    refine ⟨.refl _, fun h i i' k hget hget' hne => ?_, ?_⟩
    · obtain rfl := Option.some.inj (hget.symm.trans hget')
      exact (hne rfl).elim
    · intro outcome _ h i t old new _ hold hnew
      obtain rfl := Option.some.inj (hold.symm.trans hnew)
      exact .refl ..
  · refine ⟨hdraws.redrawn, fun h i i' k hget hget' hne => ?_, ?_⟩
    · exact shows_of_ne hfinal hdraws hcoherent.resources hget hget' hne
    · intro outcome houtcome h i t old new hget hold hnew
      obtain rfl := Except.ok.inj (hresult.symm.trans houtcome)
      have hhere : c.formatOf h = i.desc.format := by
        unfold formatOf
        rw [hget]
        rfl
      rw [hdraws.texels] at hnew
      exact hhere ▸ final_confined (fun s => hcoherent.surface_format) hfinal hold hnew

/-! ## Two rows of pixels -/

/-- The numbers from one, as many as two rows of two pixels have bytes. -/
def numbered : Array UInt8 := #[1, 2, 3, 4, 5, 6, 7, 8, 9, 10, 11, 12, 13, 14, 15, 16]

/-- A colour image and an image of depth and stencil, of two rows of two pixels each. -/
def rowImages (colors depths : Array UInt8) : Arena .image Image :=
  ⟨#[⟨1, some ⟨.d2 .rgba8Unorm 2 2, colors⟩⟩, ⟨1, some ⟨.d2 .d24UnormS8Uint 2 2, depths⟩⟩], []⟩

/-- A surface of either image. -/
def rowSurfaces : Arena .surface Surface :=
  ⟨#[⟨1, some ⟨⟨1, 1⟩, .rgba8Unorm, 0, 0, 2, 2⟩⟩,
    ⟨1, some ⟨⟨2, 1⟩, .d24UnormS8Uint, 0, 0, 2, 2⟩⟩], []⟩

/-- A context that draws to two rows with masks: only red, no depth, and two bits of the
stencil value are written. -/
def masked : RenderContext where
  settings := ⟨1, 1, 1, false⟩
  resources := ⟨rowImages numbered numbered, .empty, .empty, rowSurfaces⟩
  units := .create 1
  cache := .create (.new false) 1 1
  targets := ⟨some ⟨1, 1⟩, some ⟨2, 1⟩, some ⟨2, 1⟩⟩
  current := none
  state := { (default : RenderState) with
    blend := { BlendAttachment.replace with colorMask := ⟨1⟩ }
    depthStencil := ⟨true, false, .greaterEqual, true,
      ⟨.always, .keep, .keep, .replace, 0xff, 3⟩, default⟩
    stencilReference := ⟨7, 0⟩ }

/-- The context with the masks can come to be. -/
theorem masked_reachable : masked.Reachable :=
  reachable_of_setup
    [.createImage 16 (.d2 .rgba8Unorm 2 2), .createImage 16 (.d2 .d24UnormS8Uint 2 2),
      .upload ⟨1, 1⟩ 0 0 numbered.toList, .upload ⟨2, 1⟩ 0 0 numbered.toList,
      .createSurface ⟨1, 1⟩ 0 0, .createSurface ⟨2, 1⟩ 0 0] rfl rfl rfl rfl rfl

/-- On the right of the lower row of the window, which is the second row of the images. -/
def lowerFragment : Fragment := ⟨1, 0, .half, true, []⟩

/-- Of the colours one byte changes, red in the second row, and of depth and stencil one too,
the last of its texel, by its two lowest bits; both stand in the texel that is shown. -/
theorem processFragment_confined_masked :
    let reply := masked.processFragment violet lowerFragment ()
    let after := reply.state.context.resources.images
    reply.result = .ok .written ∧
      (after.get? ⟨1, 1⟩).map Image.data = some (numbered.set 12 255) ∧
      (after.get? ⟨2, 1⟩).map Image.data = some (numbered.set 15 19) ∧
      masked.scene.Shows lowerFragment ⟨1, 1⟩ ⟨.d2 .rgba8Unorm 2 2, numbered⟩ 12 ∧
      masked.scene.Shows lowerFragment ⟨2, 1⟩ ⟨.d2 .d24UnormS8Uint 2 2, numbered⟩ 15 ∧
      masked.scene.Confined lowerFragment .written .rgba8Unorm
        [13, 14, 15, 16] [255, 14, 15, 16] ∧
      masked.scene.Confined lowerFragment .written .d24UnormS8Uint
        [13, 14, 15, 16] [13, 14, 15, 19] := by
  let after := (masked.processFragment violet lowerFragment ()).state.context.resources
  obtain ⟨-, hbytes, hconfined⟩ :=
    masked_reachable.processFragment_confined violet lowerFragment ()
  have hresult : (masked.processFragment violet lowerFragment ()).result = .ok .written := by
    decide +kernel
  have hcolorData : (after.images.get? ⟨1, 1⟩).map Image.data = some (numbered.set 12 255) := by
    decide +kernel
  have hdepthData : (after.images.get? ⟨2, 1⟩).map Image.data = some (numbered.set 15 19) := by
    decide +kernel
  have hcolor : after.texels ⟨1, 1⟩ ⟨0, 0, 1, 1, 0⟩ = some [255, 14, 15, 16] := by
    decide +kernel
  have hdepth : after.texels ⟨2, 1⟩ ⟨0, 0, 1, 1, 0⟩ = some [13, 14, 15, 19] := by
    decide +kernel
  obtain ⟨i, hcolorImage, hi⟩ := Option.map_eq_some_iff.mp hcolorData
  obtain ⟨j, hdepthImage, hj⟩ := Option.map_eq_some_iff.mp hdepthData
  have hred : i.data[12]? ≠ numbered[12]? := by
    rw [hi]
    decide
  have hlast : j.data[15]? ≠ numbered[15]? := by
    rw [hj]
    decide
  exact ⟨hresult, hcolorData, hdepthData,
    hbytes ⟨1, 1⟩ ⟨.d2 .rgba8Unorm 2 2, numbered⟩ i 12 rfl hcolorImage hred,
    hbytes ⟨2, 1⟩ ⟨.d2 .d24UnormS8Uint 2 2, numbered⟩ j 15 rfl hdepthImage hlast,
    hconfined .written hresult ⟨1, 1⟩ _ ⟨0, 0, 1, 1, 0⟩ [13, 14, 15, 16] _ rfl rfl hcolor,
    hconfined .written hresult ⟨2, 1⟩ _ ⟨0, 0, 1, 1, 0⟩ [13, 14, 15, 16] _ rfl rfl hdepth⟩

end RenderContext

end PixelPipeline
