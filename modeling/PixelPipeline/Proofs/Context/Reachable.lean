import PixelPipeline.Proofs.Context.CurrentUnit
import PixelPipeline.Proofs.Draw.Writing
import PixelPipeline.Proofs.Resource.Calls

/-!
# Contexts that can come to be

A user creates a context and then creates and destroys resources, uploads,
changes the state, binds targets and textures, clears, and draws with any
shader, in any order.  `Step` is one such operation, and a reachable context is
what any number of them lead to.

Whatever was done, the resources refer to what exists, a bound target is a
surface that fits it or a surface that was destroyed, and the unit found for the
current state is the unit of that state (`Coherent`).  A target stays bound when
its surface is destroyed; that no later surface takes its place under the same
handle is what keeps the formats of targets right.

* `Step.coherent` — every operation keeps a context coherent;
* `Reachable.coherent` — so every reachable context is;
* `reachable_of_setup` — resources that calls lead to, a state and targets among the
  resources make up a reachable context.
-/

namespace PixelPipeline

variable {σ : Type}

/-- A handle was given out, and as long as its surface exists the format fits. -/
structure Resources.Suits (r : Resources) (fits : Format → Bool) (h : Handle .surface) : Prop where
  issued : r.surfaces.Issued h
  format : ∀ s, r.surfaces.get? h = some s → fits s.format = true

/-- A surface that fits goes on to fit while the surfaces age. -/
theorem Resources.Suits.ages {r r' : Resources} {fits : Format → Bool} {h : Handle .surface}
    (hsuits : r.Suits fits h) (hages : r.surfaces.Ages r'.surfaces) : r'.Suits fits h where
  issued := hages.issued h hsuits.issued
  format s hget := hsuits.format s (hages.get? h hsuits.issued s hget)

namespace RenderContext

variable {c c' : RenderContext}

/-- What holds of a context at any time. -/
structure Coherent (c : RenderContext) : Prop where
  resources : c.resources.Valid
  color : ∀ h, c.targets.color = some h → c.resources.Suits Format.isColorRenderable h
  depth : ∀ h, c.targets.depth = some h → c.resources.Suits Format.hasDepth h
  stencil : ∀ h, c.targets.stencil = some h → c.resources.Suits Format.hasStencil h
  backed : ∃ l, Backed c.cache c.current l

/-- One operation of a user on a context. -/
inductive Step (c : RenderContext) : RenderContext → Prop
  | change {resources : Resources} (hchange : c.resources.Change resources) :
      Step c { c with resources }
  | setState (state : RenderState) : Step c { c with state }
  | setColorTarget {target : Option (Handle .surface)} {c' : RenderContext}
      (hset : c.setColorTarget target = .ok c') : Step c c'
  | setDepthTarget {target : Option (Handle .surface)} {c' : RenderContext}
      (hset : c.setDepthTarget target = .ok c') : Step c c'
  | setStencilTarget {target : Option (Handle .surface)} {c' : RenderContext}
      (hset : c.setStencilTarget target = .ok c') : Step c c'
  | bindTexture {unit : Nat} {view : Handle .view} {sampler : Handle .sampler}
      {c' : RenderContext} (hbind : c.bindTexture unit view sampler = .ok c') : Step c c'
  | unbindTexture {unit : Nat} {c' : RenderContext} (hunbind : c.unbindTexture unit = .ok c') :
      Step c c'
  | ensureCompiled : Step c c.ensureCompiled.state
  | ensure (s : PipelineState) : Step c { c with cache := (c.cache.ensure s).state }
  | clearCache : Step c { c with cache := c.cache.clear }
  | processFragment {σ : Type} (shader : Shader σ) (f : Fragment) (memory : σ) :
      Step c (c.processFragment shader f memory).state.context
  | draw {σ : Type} (shader : Shader σ) (fragments : List Fragment) (memory : σ) :
      Step c (c.draw shader fragments memory).state.context
  | clearColor (color : Color) : Step c (c.clearColor color).2
  | clearDepth (depth : Binary32) : Step c (c.clearDepth depth).2
  | clearStencil (value : UInt8) : Step c (c.clearStencil value).2

/-- What operations lead to from a new context. -/
inductive Reachable : RenderContext → Prop
  | create {settings : Settings} {c : RenderContext} (hcreate : create settings = .ok c) :
      Reachable c
  | step {c c' : RenderContext} (hreachable : Reachable c) (hstep : Step c c') : Reachable c'

/-! ## What operations leave -/

/-- A fragment is processed by the current unit. -/
theorem processFragment_of_currentUnit {h : UnitHandle} {u : BlendUnit} {log : Log}
    (hunit : c.currentUnit = ⟨.ok (h, u), c', log⟩) (shader : Shader σ) (f : Fragment)
    (memory : σ) :
    c.processFragment shader f memory =
      let answer := c'.stage.run u shader f ⟨c'.resources, memory⟩
      ⟨answer.1, ⟨{ c' with resources := answer.2.resources }, answer.2.memory⟩, log ++ []⟩ := by
  have hmapped : (c.currentUnit).mapState (Shading.mk · memory)
      = ⟨.ok (h, u), ⟨c', memory⟩, log⟩ := by
    rw [hunit]
    rfl
  unfold processFragment
  rw [Reply.andThen_of_ok hmapped]
  rfl

/-- So are the fragments of a draw. -/
theorem draw_of_currentUnit {h : UnitHandle} {u : BlendUnit} {log : Log}
    (hunit : c.currentUnit = ⟨.ok (h, u), c', log⟩) (shader : Shader σ)
    (fragments : List Fragment) (memory : σ) :
    (c.draw shader fragments memory).state.context = { c' with
      resources := (c'.stage.runAll u shader fragments default ⟨c'.resources, memory⟩).2.resources
        } := by
  unfold draw
  rw [hunit]
  rfl

/-- Ensuring the unit leaves the context as resolving it does. -/
theorem ensureCompiled_of_currentUnit {h : UnitHandle} {u : BlendUnit} {log : Log}
    (hunit : c.currentUnit = ⟨.ok (h, u), c', log⟩) : c.ensureCompiled.state = c' := by
  unfold ensureCompiled
  rw [Reply.andThen_of_ok hunit]
  rfl

/-- An accepted target fits. -/
theorem checkTarget_eq_ok {target : Option (Handle .surface)} {aspect : Aspect}
    {fits : Format → Bool} (hcheck : c.checkTarget target aspect fits = .ok ())
    (h : Handle .surface) (htarget : target = some h) : c.resources.Suits fits h := by
  subst htarget
  unfold checkTarget at hcheck
  obtain ⟨s, hsurface, hrest⟩ := bind_eq_ok.mp hcheck
  have hget := Resources.surface_eq_ok.mp hsurface
  refine ⟨Arena.get?_issued hget, fun s' hget' => ?_⟩
  obtain rfl := Option.some.inj (hget.symm.trans hget')
  by_cases hfits : fits s.format = true
  · exact hfits
  · rw [if_neg hfits] at hrest
    cases hrest

/-- A clear redraws. -/
theorem clearColor_redrawn (c : RenderContext) (color : Color) :
    ∃ resources, (c.clearColor color).2 = { c with resources } ∧
      c.resources.Redrawn resources := by
  unfold clearColor
  cases c.targets.color with
  | none => exact ⟨c.resources, rfl, .refl _⟩
  | some h =>
    refine ⟨_, rfl, Stage.Redraws.bind (Stage.redraws_lift _) (fun surface => ?_) c.resources⟩
    by_cases hplain : c.state.blend.colorMask = .all ∧ !c.state.rasterizer.scissorTest
    · simp only [if_pos hplain]
      exact redraws_fillColor surface color _
    · simp only [if_neg hplain]
      exact c.redraws_clearWith surface _

/-- Clearing depths redraws images and changes nothing else. -/
theorem clearDepth_redrawn (c : RenderContext) (depth : Binary32) :
    ∃ resources, (c.clearDepth depth).2 = { c with resources } ∧
      c.resources.Redrawn resources := by
  unfold clearDepth
  cases c.targets.depth with
  | none => exact ⟨c.resources, rfl, .refl _⟩
  | some h =>
    exact ⟨_, rfl, Stage.Redraws.bind (Stage.redraws_lift _)
      (fun surface => c.redraws_clearWith surface _) c.resources⟩

/-- Clearing stencil values redraws images and changes nothing else. -/
theorem clearStencil_redrawn (c : RenderContext) (value : UInt8) :
    ∃ resources, (c.clearStencil value).2 = { c with resources } ∧
      c.resources.Redrawn resources := by
  unfold clearStencil
  cases c.targets.stencil with
  | none => exact ⟨c.resources, rfl, .refl _⟩
  | some h =>
    exact ⟨_, rfl, Stage.Redraws.bind (Stage.redraws_lift _)
      (fun surface => c.redraws_clearWith surface _) c.resources⟩

/-! ## Coherence -/

/-- A new context is coherent. -/
theorem coherent_create {settings : Settings} (hcreate : create settings = .ok c) :
    c.Coherent := by
  unfold create at hcreate
  obtain ⟨cache, hcache, hrest⟩ := bind_eq_ok.mp hcreate
  obtain rfl := Except.ok.inj hrest
  refine ⟨Resources.valid_empty, ?_, ?_, ?_, Backed.of_settings hcache⟩ <;>
  · intro h htarget
    cases htarget

namespace Coherent

/-- Resources may change as long as surface handles keep their meaning. -/
theorem withResources (hcoherent : c.Coherent) {resources : Resources}
    (hvalid : resources.Valid) (hages : c.resources.surfaces.Ages resources.surfaces) :
    Coherent { c with resources } where
  resources := hvalid
  color h htarget := (hcoherent.color h htarget).ages hages
  depth h htarget := (hcoherent.depth h htarget).ages hages
  stencil h htarget := (hcoherent.stencil h htarget).ages hages
  backed := hcoherent.backed

/-- A context stays coherent when images are redrawn. -/
theorem redrawn (hcoherent : c.Coherent) {resources : Resources}
    (hredrawn : c.resources.Redrawn resources) : Coherent { c with resources } :=
  hcoherent.withResources (hredrawn.valid hcoherent.resources) (hredrawn.surfaces ▸ .refl _)

/-- A context stays coherent with any cache that is backed. -/
theorem withCache (hcoherent : c.Coherent) {cache : UnitCache BlendCompiler}
    {current : Option (PipelineState × UnitHandle)} {l : Lru BlendCompiler}
    (hbacked : Backed cache current l) : Coherent { c with cache, current } :=
  { hcoherent with backed := ⟨l, hbacked⟩ }

/-- The current unit is found, and finding it keeps the context coherent. -/
theorem currentUnit (hcoherent : c.Coherent) :
    ∃ h u cache current log, c.currentUnit = ⟨.ok (h, u), { c with cache, current }, log⟩ ∧
      BlendCompiler.unitOf c.state.pipelineState = .ok u ∧
      Coherent { c with cache, current } := by
  obtain ⟨l, hbacked⟩ := hcoherent.backed
  obtain ⟨h, u, cache, current, l', log, hunit, hstate, hbacked'⟩ := currentUnit_ok hbacked
  exact ⟨h, u, cache, current, log, hunit, hstate, hcoherent.withCache hbacked'⟩

end Coherent

/-- Every operation keeps a context coherent. -/
theorem Step.coherent (hstep : Step c c') (hcoherent : c.Coherent) : c'.Coherent := by
  cases hstep with
  | change hchange =>
    exact hcoherent.withResources (hchange.valid hcoherent.resources)
      (hchange.ages hcoherent.resources)
  | setState state => exact { hcoherent with }
  | setColorTarget hset =>
    obtain ⟨_, hcheck, hrest⟩ := bind_eq_ok.mp hset
    obtain rfl := Except.ok.inj hrest
    exact { hcoherent with color := checkTarget_eq_ok hcheck }
  | setDepthTarget hset =>
    obtain ⟨_, hcheck, hrest⟩ := bind_eq_ok.mp hset
    obtain rfl := Except.ok.inj hrest
    exact { hcoherent with depth := checkTarget_eq_ok hcheck }
  | setStencilTarget hset =>
    obtain ⟨_, hcheck, hrest⟩ := bind_eq_ok.mp hset
    obtain rfl := Except.ok.inj hrest
    exact { hcoherent with stencil := checkTarget_eq_ok hcheck }
  | bindTexture hbind =>
    obtain ⟨_, -, hrest⟩ := bind_eq_ok.mp hbind
    obtain ⟨_, -, hrest⟩ := bind_eq_ok.mp hrest
    obtain ⟨_, -, hrest⟩ := bind_eq_ok.mp hrest
    obtain rfl := Except.ok.inj hrest
    exact { hcoherent with }
  | unbindTexture hunbind =>
    obtain ⟨_, -, hrest⟩ := bind_eq_ok.mp hunbind
    obtain rfl := Except.ok.inj hrest
    exact { hcoherent with }
  | ensureCompiled =>
    obtain ⟨h, u, cache, current, log, hunit, -, hcoherent'⟩ := hcoherent.currentUnit
    rw [ensureCompiled_of_currentUnit hunit]
    exact hcoherent'
  | ensure s =>
    obtain ⟨l, hbacked⟩ := hcoherent.backed
    obtain ⟨h, u, cache, log, l', hensure, -, -, hbacked', -⟩ := hbacked.ensure s
    rw [hensure]
    exact hcoherent.withCache hbacked'
  | clearCache =>
    obtain ⟨l, hbacked⟩ := hcoherent.backed
    exact hcoherent.withCache hbacked.clear
  | processFragment shader f memory =>
    obtain ⟨h, u, cache, current, log, hunit, -, hcoherent'⟩ := hcoherent.currentUnit
    rw [processFragment_of_currentUnit hunit]
    exact hcoherent'.redrawn (c.stage.redrawn_run u shader f ⟨c.resources, memory⟩)
  | draw shader fragments memory =>
    obtain ⟨h, u, cache, current, log, hunit, -, hcoherent'⟩ := hcoherent.currentUnit
    rw [draw_of_currentUnit hunit]
    exact hcoherent'.redrawn
      (c.stage.redrawn_runAll u shader fragments default ⟨c.resources, memory⟩)
  | clearColor color =>
    obtain ⟨resources, heq, hredrawn⟩ := c.clearColor_redrawn color
    rw [heq]
    exact hcoherent.redrawn hredrawn
  | clearDepth depth =>
    obtain ⟨resources, heq, hredrawn⟩ := c.clearDepth_redrawn depth
    rw [heq]
    exact hcoherent.redrawn hredrawn
  | clearStencil value =>
    obtain ⟨resources, heq, hredrawn⟩ := c.clearStencil_redrawn value
    rw [heq]
    exact hcoherent.redrawn hredrawn

/-- **Every reachable context is coherent.** -/
theorem Reachable.coherent (hreachable : c.Reachable) : c.Coherent := by
  induction hreachable with
  | create hcreate => exact coherent_create hcreate
  | step _ hstep ih => exact hstep.coherent ih

/-! ## Setting up -/

/-- Any calls on the resources of a reachable context lead to a reachable one. -/
theorem Reachable.calls (hreachable : c.Reachable) (calls : List ResourceCall) :
    Reachable { c with resources := calls.foldl Resources.carry c.resources } := by
  induction calls generalizing c with
  | nil => exact hreachable
  | cons k rest ih =>
    rw [List.foldl_cons]
    obtain hsame | hchange := c.resources.carry_change k
    · rw [hsame]
      exact ih hreachable
    · exact ih (hreachable.step (.change hchange))

/-- In a reachable context any targets that pass their checks can be chosen. -/
theorem Reachable.aim (hreachable : c.Reachable) {targets : Targets}
    (hcolor : c.checkTarget targets.color .color Format.isColorRenderable = .ok ())
    (hdepth : c.checkTarget targets.depth .depth Format.hasDepth = .ok ())
    (hstencil : c.checkTarget targets.stencil .stencil Format.hasStencil = .ok ()) :
    Reachable { c with targets } := by
  -- each check looks at the resources alone, which no choice of a target changes
  have hcolored : c.setColorTarget targets.color
      = .ok { c with targets := { c.targets with color := targets.color } } :=
    bind_eq_ok.mpr ⟨(), hcolor, rfl⟩
  have hdeep : setDepthTarget { c with targets := { c.targets with color := targets.color } }
      targets.depth
      = .ok { c with targets := ⟨targets.color, targets.depth, c.targets.stencil⟩ } :=
    bind_eq_ok.mpr ⟨(), hdepth, rfl⟩
  have hall : setStencilTarget
      { c with targets := ⟨targets.color, targets.depth, c.targets.stencil⟩ } targets.stencil
      = .ok { c with targets } :=
    bind_eq_ok.mpr ⟨(), hstencil, rfl⟩
  exact ((hreachable.step (.setColorTarget hcolored)).step (.setDepthTarget hdeep)).step
    (.setStencilTarget hall)

/-- **A new context can be set up** with the resources that any calls lead to, with any state,
and with targets that pass their checks. -/
theorem reachable_of_setup (calls : List ResourceCall)
    (hcreate : create c.settings = .ok { c with
      resources := .empty, targets := default, state := default })
    (hresources : Resources.after calls = c.resources)
    (hcolor : c.checkTarget c.targets.color .color Format.isColorRenderable = .ok ())
    (hdepth : c.checkTarget c.targets.depth .depth Format.hasDepth = .ok ())
    (hstencil : c.checkTarget c.targets.stencil .stencil Format.hasStencil = .ok ()) :
    c.Reachable := by
  have hstate : Reachable { c with resources := .empty, targets := default } :=
    (Reachable.create hcreate).step (.setState c.state)
  have hcalled : Reachable { c with targets := default } := hresources ▸ hstate.calls calls
  exact hcalled.aim hcolor hdepth hstencil

end RenderContext

end PixelPipeline
