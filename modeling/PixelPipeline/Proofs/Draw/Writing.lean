import PixelPipeline.Context.Clear
import PixelPipeline.Proofs.Resource.Valid

/-!
# Writing steps

A writing step may fail half way, and what was written before stays.  Whatever
it does, it redraws: nothing but bytes of images changes (`Redraws`).  This is
shown part by part for the steps that fragments and clears are made of.
-/

namespace PixelPipeline

namespace Stage

variable {α β σ : Type} {r r' : Resources}

/-- The answer of a writing step, and the resources after it. -/
def perform (w : Writing α) (r : Resources) : Except Fault α × Resources := w.run.run r

@[simp] theorem perform_pure (a : α) (r : Resources) :
    perform (pure a) r = (.ok a, r) := rfl

@[simp] theorem perform_throw (fault : Fault) (r : Resources) :
    perform (throw fault : Writing α) r = (.error fault, r) := rfl

@[simp] theorem perform_lift (x : Except Fault α) (r : Resources) :
    perform (liftM x) r = (x, r) := by
  cases x with
  | error fault => rfl
  | ok a => rfl

@[simp] theorem perform_get (r : Resources) : perform (getThe Resources) r = (.ok r, r) := rfl

@[simp] theorem perform_modify (f : Resources → Resources) (r : Resources) :
    perform (modifyThe Resources f) r = (.ok (), f r) := rfl

/-- A step after one that succeeds. -/
theorem perform_bind_ok {w : Writing α} {next : α → Writing β} {a : α}
    (hfirst : perform w r = (.ok a, r')) : perform (w >>= next) r = perform (next a) r' := by
  unfold perform at hfirst ⊢
  simp only [ExceptT.run_bind, StateT.run_bind, hfirst]
  rfl

/-- A fault ends a sequence. -/
theorem perform_bind_error {w : Writing α} {next : α → Writing β} {fault : Fault}
    (hfirst : perform w r = (.error fault, r')) : perform (w >>= next) r = (.error fault, r') := by
  unfold perform at hfirst ⊢
  simp only [ExceptT.run_bind, StateT.run_bind, hfirst]
  rfl

/-! ## Redrawing -/

/-- The step changes nothing but bytes of images. -/
def Redraws (w : Writing α) : Prop := ∀ r : Resources, r.Redrawn (perform w r).2

theorem redraws_pure (a : α) : Redraws (pure a) := fun r => .refl r

theorem redraws_throw (fault : Fault) : Redraws (throw fault : Writing α) := fun r => .refl r

theorem redraws_lift (x : Except Fault α) : Redraws (liftM x) := by
  intro r
  rw [perform_lift]
  exact .refl r

theorem redraws_get : Redraws (getThe Resources) := fun r => .refl r

/-- A modification that redraws images does so as a write. -/
theorem redraws_modify {f : Resources → Resources} (hredrawn : ∀ r : Resources, r.Redrawn (f r)) :
    Redraws (modifyThe Resources f) := hredrawn

/-- Writes in sequence redraw images if each of them does. -/
theorem Redraws.bind {w : Writing α} {next : α → Writing β} (hfirst : Redraws w)
    (hnext : ∀ a, Redraws (next a)) : Redraws (w >>= next) := by
  intro r
  have hw := hfirst r
  rcases hperform : perform w r with ⟨answer, r'⟩
  rw [hperform] at hw
  cases answer with
  | error fault =>
    rw [perform_bind_error hperform]
    exact hw
  | ok a =>
    rw [perform_bind_ok hperform]
    exact hw.trans (hnext a r')

/-- Updating a texel redraws its image. -/
theorem redraws_updateTexel (h : Handle .surface) (aspect : Aspect) (x y : Nat)
    (update : Format → Bytes → Except Fault (Bytes × α)) :
    Redraws (updateTexel h aspect x y update) := by
  unfold updateTexel
  apply redraws_get.bind
  intro r
  apply (redraws_lift _).bind
  intro surface
  apply (redraws_lift _).bind
  intro texel
  cases texel with
  | none => exact redraws_throw _
  | some bytes =>
    apply (redraws_lift _).bind
    intro updated
    apply (redraws_modify fun r => r.redrawn_setSurfaceTexel surface x y _).bind
    intro _
    exact redraws_pure _

variable (g : Stage) (unit : BlendUnit) (shader : Shader σ) (f : Fragment) (c : Candidate)

/-- Updating the stencil value redraws its image. -/
theorem redraws_updateStencil (stored : Option UInt8) (op : StencilOp) :
    Redraws (g.updateStencil f c stored op) := by
  unfold updateStencil
  cases g.stencilTarget? with
  | none => exact redraws_pure _
  | some h =>
    cases stored with
    | none => exact redraws_pure _
    | some value =>
      simp only
      by_cases hsame : op.apply value (g.reference f) (g.face f).writeMask = value
      · rw [if_pos hsame]
        exact redraws_pure _
      · rw [if_neg hsame]
        exact redraws_updateTexel _ _ _ _ _

/-- Writing the colour redraws its image. -/
theorem redraws_writeColor (shaded : Color) : Redraws (g.writeColor unit c shaded) := by
  unfold writeColor
  cases g.targets.color with
  | none => exact redraws_pure _
  | some h =>
    simp only
    exact redraws_updateTexel _ _ _ _ _

/-- Writing the depth redraws its image. -/
theorem redraws_writeDepth (depth : Binary32) : Redraws (g.writeDepth unit c depth) := by
  unfold writeDepth
  cases g.targets.depth with
  | none => exact redraws_pure _
  | some h =>
    simp only
    by_cases hwrite : unit.state.depthWrite = true
    · rw [if_pos hwrite]
      exact redraws_updateTexel _ _ _ _ _
    · rw [if_neg hwrite]
      exact redraws_pure _

/-- Writing the pixel redraws the images of the targets. -/
theorem redraws_writePixel (stored : Option UInt8) (shaded : Color) :
    Redraws (g.writePixel unit f c stored shaded) := by
  unfold writePixel
  apply (g.redraws_writeColor unit c shaded).bind
  intro depth
  apply (g.redraws_updateStencil f c stored _).bind
  intro _
  exact g.redraws_writeDepth unit c depth

/-! ## Fragments -/

/-- After the writes of a fragment nothing but images were redrawn. -/
theorem redrawn_afterWrites (s : Surroundings σ) {writes : Writing Unit} (hwrites : Redraws writes)
    (outcome : FragmentOutcome) :
    s.resources.Redrawn (afterWrites s writes outcome).2.resources := hwrites s.resources

/-- A fragment redraws, whatever becomes of it. -/
theorem redrawn_run (s : Surroundings σ) :
    s.resources.Redrawn (g.run unit shader f s).2.resources := by
  unfold run
  cases g.qualify s.resources f with
  | error fault => exact .refl _
  | ok qualified =>
    cases qualified with
    | error reason => exact .refl _
    | ok c =>
      simp only
      cases g.judge s.resources f c with
      | error fault => exact .refl _
      | ok judged =>
        rcases judged with ⟨stored, verdict⟩
        cases verdict with
        | fail reason op => exact redrawn_afterWrites s (g.redraws_updateStencil f c stored op) _
        | pass =>
          simp only
          unfold shadeAndWrite
          rcases shader.shade f ⟨s.resources, g.units⟩ s.memory with ⟨answer, memory⟩
          cases answer with
          | error fault => exact .refl _
          | ok shaded =>
            cases shaded with
            | none => exact .refl _
            | some color =>
              exact redrawn_afterWrites ⟨s.resources, memory⟩
                (g.redraws_writePixel unit f c stored color.clampUnit) _

/-- So do fragments in a row. -/
theorem redrawn_runAll (fragments : List Fragment) (stats : DrawStats) (s : Surroundings σ) :
    s.resources.Redrawn (g.runAll unit shader fragments stats s).2.resources := by
  induction fragments generalizing stats s with
  | nil => exact .refl _
  | cons f rest ih =>
    have hfirst := g.redrawn_run unit shader f s
    unfold runAll
    rcases hrun : g.run unit shader f s with ⟨result, s'⟩
    rw [hrun] at hfirst
    cases result with
    | error fault => exact hfirst
    | ok outcome => exact hfirst.trans (ih _ s')

end Stage

namespace RenderContext

open Stage

/-! ## Clears -/

/-- Clearing a texel redraws its image. -/
theorem redraws_clearTexel (surface : Surface) (change : Bytes → Except Fault Bytes) (x y : Nat) :
    Redraws (clearTexel surface change x y) := by
  unfold clearTexel
  apply redraws_get.bind
  intro r
  apply (redraws_lift _).bind
  intro image
  cases surface.texelIndex? x y >>= image.texel? with
  | none => exact redraws_pure _
  | some bytes =>
    apply (redraws_lift _).bind
    intro changed
    exact redraws_modify fun r => r.redrawn_setSurfaceTexel surface x y changed

/-- Clearing a surface redraws its image. -/
theorem redraws_clearWith (c : RenderContext) (surface : Surface)
    (change : Bytes → Except Fault Bytes) : Redraws (c.clearWith surface change) := by
  unfold clearWith
  induction (positions surface).filter fun p => !c.clearSkips p.1 p.2 with
  | nil => exact redraws_pure _
  | cons p rest ih => exact (redraws_clearTexel surface change p.1 p.2).bind fun _ => ih

/-- Filling with a colour redraws the image. -/
theorem redraws_fillColor (surface : Surface) (color : Color) (mask : ColorMask) :
    Redraws (fillColor surface color mask) := by
  unfold fillColor
  apply (redraws_lift _).bind
  intro texel
  apply redraws_get.bind
  intro r
  apply (redraws_lift _).bind
  intro image
  exact redraws_modify fun r => r.redrawn_modifyImage surface.image fun i _ =>
    i.frame_fill surface.level surface.layer texel

end RenderContext

end PixelPipeline
