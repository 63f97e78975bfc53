import PixelPipeline.Proofs.Blend.Unit
import PixelPipeline.Proofs.Draw.Reference

/-!
# Stages follow the reference

Each stage that a fragment passes through does what the reference says of it.
The stages before the tests need no more than live targets (`qualify_eq`).  A
fragment that they let through lies inside every target, so that its texels are
there (`Aimed`): the tests read them (`judge_eq`), and no write fails
(`writePixel_draws`).  Three writes follow one another.  The blended colour goes
to an image that is neither a depth nor a stencil image, so the stencil value is
still the one that was tested; depth and stencil may share a texel, and each
write keeps the other's part.
-/

namespace PixelPipeline

/-- Where a fragment goes that nothing turns away. -/
def Scene.candidate (q : Scene) (f : Fragment) : Candidate :=
  ⟨f.x.toNat, f.y.toNat, q.depthOf f⟩

namespace Stage

open Scene

variable {α σ : Type} {g : Stage} {r r' : Resources} {q : Scene} {f : Fragment}

/-! ## Targets under a fragment -/

/-- A target is absent, or its surface shows a texel of a fitting format under
the fragment. -/
inductive Aims (r : Resources) (fits : Format → Bool) (f : Fragment) :
    Option (Handle .surface) → Option Surface → Prop
  | unbound : Aims r fits f none none
  | bound {h : Handle .surface} {s : Surface} {t : TexelIndex}
      (hget : r.surfaces.get? h = some s)
      (htexel : s.texelIndex? f.x.toNat f.y.toNat = some t)
      (hspot : s.spot? f.x f.y = some ⟨s.format, s.image, t⟩)
      (hsited : r.Sited ⟨s.format, s.image, t⟩) (hfits : fits s.format = true) :
      Aims r fits f (some h) (some s)

/-- A target is aimed at as before when images are redrawn. -/
theorem Aims.redrawn {fits : Format → Bool} {target : Option (Handle .surface)}
    {surface : Option Surface} (haims : Aims r fits f target surface)
    (hredrawn : r.Redrawn r') : Aims r' fits f target surface := by
  cases haims with
  | unbound => exact .unbound
  | bound hget htexel hspot hsited hfits =>
    exact .bound (hredrawn.surfaces ▸ hget) htexel hspot (hsited.redrawn hredrawn) hfits

/-- Without a target there is no surface. -/
theorem Aims.eq_none {fits : Format → Bool} {surface : Option Surface}
    (haims : Aims r fits f none surface) : surface = none := by
  cases haims
  rfl

/-- The stage draws the fragment to the scene. -/
structure Aimed (g : Stage) (r : Resources) (q : Scene) (f : Fragment) : Prop where
  state : q.state = g.state
  color : Aims r Format.isColorRenderable f g.targets.color q.color
  depth : Aims r Format.hasDepth f g.targets.depth q.depth
  stencil : Aims r Format.hasStencil f g.targets.stencil q.stencil

/-- A fragment is drawn to the same scene when images are redrawn. -/
theorem Aimed.redrawn (haimed : g.Aimed r q f) (hredrawn : r.Redrawn r') : g.Aimed r' q f where
  state := haimed.state
  color := haimed.color.redrawn hredrawn
  depth := haimed.depth.redrawn hredrawn
  stencil := haimed.stencil.redrawn hredrawn

/-! ## Reading and replacing a texel -/

section Texel

variable {h : Handle .surface} {s : Surface} {t : TexelIndex} {x y : Nat} {bytes : Bytes}

/-- A surface shows the bytes of its texel. -/
theorem surfaceTexel_eq (hget : r.surfaces.get? h = some s) (htexel : s.texelIndex? x y = some t)
    (hsited : r.Sited ⟨s.format, s.image, t⟩) :
    r.surfaceTexel h x y = .ok (Spot.read ⟨s.format, s.image, t⟩ r.texels) := by
  obtain ⟨i, himage, -⟩ := hsited
  unfold Resources.surfaceTexel Spot.read Resources.texels
  rw [Resources.surface_eq_ok.mpr hget]
  simp only [bind, Except.bind]
  rw [Resources.image_eq_ok.mpr himage]
  simp only [htexel, himage]
  rfl

/-- Reading a texel of a target reads the texel that the scene shows. -/
theorem readTexel_eq {aspect : Aspect} {read : Format → Bytes → Option α} {value : α}
    (hget : r.surfaces.get? h = some s) (htexel : s.texelIndex? x y = some t)
    (hsited : r.Sited ⟨s.format, s.image, t⟩)
    (hread : Spot.read ⟨s.format, s.image, t⟩ r.texels = some bytes)
    (hvalue : read s.format bytes = some value) : readTexel r h aspect x y read = .ok value := by
  unfold readTexel
  rw [Resources.surface_eq_ok.mpr hget,
    surfaceTexel_eq hget htexel hsited]
  simp only [bind, Except.bind, hread, Option.bind, hvalue]
  rfl

/-- A texel is replaced when the update of its bytes succeeds. -/
theorem perform_updateTexel {aspect : Aspect} {update : Format → Bytes → Except Fault (Bytes × α)}
    {images : List (Handle .image)} {new : Bytes} {answer : α}
    (hget : r.surfaces.get? h = some s) (htexel : s.texelIndex? x y = some t)
    (hsited : r.Sited ⟨s.format, s.image, t⟩) (hplain : s.format.isCompressed = false)
    (hread : Spot.read ⟨s.format, s.image, t⟩ r.texels = some bytes)
    (hupdate : update s.format bytes = .ok (new, answer)) (hlength : new.length = s.format.stride)
    (himage : s.image ∈ images) :
    ∃ r', perform (updateTexel h aspect x y update) r = (.ok answer, r') ∧
      r.Draws images (Spot.write ⟨s.format, s.image, t⟩ new r.texels) r' := by
  have hset : r.setSurfaceTexel s x y new = r.modifyImage s.image fun i => i.setTexel t new := by
    unfold Resources.setSurfaceTexel
    rw [htexel]
  refine ⟨r.setSurfaceTexel s x y new, ?_, r.redrawn_setSurfaceTexel s x y new, ?_, ?_⟩
  · unfold updateTexel
    rw [perform_bind_ok (perform_get r)]
    rw [Resources.surface_eq_ok.mpr hget]
    rw [perform_bind_ok (perform_lift _ r), surfaceTexel_eq hget htexel hsited, hread]
    rw [perform_bind_ok (perform_lift _ r)]
    simp only [hupdate]
    rw [perform_bind_ok (perform_lift _ r), perform_bind_ok (perform_modify _ r)]
    rfl
  · rw [hset]
    exact hsited.write hplain hlength
  · intro k hother
    have hne : k ≠ s.image := fun heq => hother (heq ▸ himage)
    rw [hset]
    change (r.images.modify s.image _).get? k = _
    rw [Arena.get?_modify, if_neg hne]

end Texel

/-! ## Stages before the tests -/

/-- The live surfaces lie under the position when all of their spots do. -/
theorem insideAll_eq {x y : Int} (hx : 0 ≤ x) (hy : 0 ≤ y) {handles : List (Handle .surface)}
    (hlive : ∀ h ∈ handles, ∃ s, r.surfaces.get? h = some s) :
    insideAll r x.toNat y.toNat handles
      = .ok ((handles.filterMap r.surfaces.get?).all fun s => (s.spot? x y).isSome) := by
  induction handles with
  | nil => rfl
  | cons h rest ih =>
    obtain ⟨s, hget⟩ := hlive h List.mem_cons_self
    have hspot : (s.spot? x y).isSome = (s.texelCoord? x.toNat y.toNat).isSome := by
      rw [s.spot?_eq hx hy]
      simp [Surface.texelIndex?]
    unfold insideAll
    rw [Resources.surface_eq_ok.mpr hget]
    simp only [bind, Except.bind]
    rw [List.filterMap_cons_some hget, List.all_cons, hspot]
    by_cases hinside : (s.texelCoord? x.toNat y.toNat).isSome = true
    · rw [if_pos hinside, hinside, Bool.true_and]
      exact ih fun h hmem => hlive h (List.mem_cons_of_mem _ hmem)
    · rw [if_neg hinside, Bool.eq_false_iff.mpr hinside, Bool.false_and]
      rfl

/-- The depth range lets the reference's depth through. -/
theorem rangedDepth?_eq (hstate : q.state = g.state) :
    g.rangedDepth? f.z
      = if (q.state.depthRange.contains f.z || q.state.rasterizer.depthClamp) = true then
          some (q.depthOf f)
        else none := by
  unfold rangedDepth? depthOf
  rw [← hstate]
  by_cases hcontains : q.state.depthRange.contains f.z = true
  · rw [if_pos hcontains, if_pos hcontains, hcontains, Bool.true_or, if_pos rfl]
  · rw [if_neg hcontains, if_neg hcontains, Bool.eq_false_iff.mpr hcontains, Bool.false_or]

/-- A fragment is turned away before the tests where the reference turns it
away, with the same reason, or it becomes a candidate. -/
theorem qualify_eq (hstate : q.state = g.state)
    (hsurfaces : q.surfaces = g.targets.bound.filterMap r.surfaces.get?)
    (hlive : ∀ h ∈ g.targets.bound, ∃ s, r.surfaces.get? h = some s) :
    g.qualify r f = .ok (match shut? (q.entrance f) with
      | some gate => .error gate.reason
      | none => .ok (q.candidate f)) := by
  have hscissor : (!(!q.state.rasterizer.scissorTest || q.state.scissor.contains f.x f.y))
      = (q.state.rasterizer.scissorTest && !q.state.scissor.contains f.x f.y) := by
    rw [Bool.not_or, Bool.not_not]
  unfold qualify shut? entrance scissored
  rw [rangedDepth?_eq hstate, ← hstate]
  simp only [List.find?_cons, List.find?_nil, Bool.not_not, hscissor]
  cases q.state.rasterizer.discard with
  | true => rfl
  | false =>
    cases q.state.depthRange.contains f.z || q.state.rasterizer.depthClamp with
    | false => rfl
    | true =>
      cases q.state.rasterizer.scissorTest && !q.state.scissor.contains f.x f.y with
      | true => rfl
      | false =>
        by_cases hnegative : f.x < 0 ∨ f.y < 0
        · have hshut : (decide (0 ≤ f.x) && decide (0 ≤ f.y)) = false := by
            simp only [Bool.and_eq_false_iff, decide_eq_false_iff_not]
            omega
          simp only [if_pos hnegative, hshut]
          rfl
        · have hx : 0 ≤ f.x := by omega
          have hy : 0 ≤ f.y := by omega
          simp only [if_neg hnegative, insideAll_eq hx hy hlive, hx, hy, hsurfaces]
          cases (g.targets.bound.filterMap r.surfaces.get?).all fun s =>
              (s.spot? f.x f.y).isSome with
          | true => rfl
          | false => rfl

/-- What the entrance lets through lies inside every target. -/
theorem inside_of_entrance (hopen : shut? (q.entrance f) = none) :
    0 ≤ f.x ∧ 0 ≤ f.y ∧ ∀ s ∈ q.surfaces, (s.spot? f.x f.y).isSome := by
  have hbounds := List.find?_eq_none.mp hopen _ (List.mem_of_getElem? (i := 3) rfl)
  simpa [and_assoc, Option.isSome_iff_ne_none] using hbounds

/-- Nothing is updated when a fragment is turned away at the entrance. -/
theorem update_of_entrance {gate : Gate} (hshut : shut? (q.entrance f) = some gate) :
    gate.update = none := by
  have hmem := List.mem_of_find?_eq_some hshut
  simp only [entrance, List.mem_cons, List.not_mem_nil, or_false] at hmem
  obtain rfl | rfl | rfl | rfl := hmem <;> rfl

/-- A test that turns a fragment away updates the stencil value. -/
theorem update_of_tests {m : Texels} {gate : Gate} (hshut : shut? (q.tests f m) = some gate) :
    ∃ op, gate.update = some op := by
  have hmem := List.mem_of_find?_eq_some hshut
  simp only [tests, List.mem_cons, List.not_mem_nil, or_false] at hmem
  obtain rfl | rfl := hmem
  · exact ⟨_, rfl⟩
  · exact ⟨_, rfl⟩

/-- The first gate that is shut is at the entrance or among the tests. -/
theorem barrier?_eq (m : Texels) :
    q.barrier? f m = (shut? (q.entrance f)).or (shut? (q.tests f m)) := List.find?_append

/-! ## Tests -/

/-- A target takes part in a test when it is switched on and bound, and then it
holds what the reference reads. -/
theorem Aims.tested {fits : Format → Bool} {target : Option (Handle .surface)}
    {surface : Option Surface} {read : Format → Bytes → Option α}
    (haims : Aims r fits f target surface) (enabled : Bool) (aspect : Aspect)
    (hreads : ∀ format bytes, fits format = true → bytes.length = format.stride →
      ∃ value, read format bytes = some value) :
    ((if enabled = true then target else none) = none ∧
      (if enabled = true then Scene.stored f r.texels surface read else none) = none) ∨
    ∃ h value, (if enabled = true then target else none) = some h ∧
      readTexel r h aspect f.x.toNat f.y.toNat read = .ok value ∧
      (if enabled = true then Scene.stored f r.texels surface read else none) = some value := by
  cases enabled with
  | false => exact .inl ⟨rfl, rfl⟩
  | true =>
    cases haims with
    | unbound => exact .inl ⟨rfl, rfl⟩
    | @bound h s t hget htexel hspot hsited hfits =>
      obtain ⟨bytes, hread, hlength⟩ := hsited.read
      obtain ⟨value, hvalue⟩ := hreads s.format bytes hfits hlength
      refine .inr ⟨h, value, rfl, readTexel_eq hget htexel hsited hread hvalue, ?_⟩
      simp [Scene.stored, hspot, hread, hvalue]

/-- The stencil value that is tested is the reference's. -/
theorem storedStencil_eq (haimed : g.Aimed r q f) :
    g.storedStencil r (q.candidate f) = .ok (q.storedStencil f r.texels) := by
  have htested := haimed.stencil.tested g.state.depthStencil.stencilTest .stencil
    fun format bytes hfits hlength => Format.readStencil?_eq_some hfits hlength
  unfold Stage.storedStencil stencilTarget? Scene.storedStencil
  rw [haimed.state]
  obtain ⟨htarget, hstored⟩ | ⟨h, value, htarget, hread, hstored⟩ := htested
  · rw [htarget, hstored]
  · rw [htarget, hstored]
    simp only [stencilAt, candidate, hread]
    rfl

/-- The depth test decides as the reference does. -/
theorem depthPasses_eq (haimed : g.Aimed r q f) :
    g.depthPasses r (q.candidate f) = .ok ((q.storedDepth f r.texels).all
      (q.state.depthStencil.depthCompare.testDepth (q.depthOf f))) := by
  have htested := haimed.depth.tested g.state.depthStencil.depthTest .depth
    fun format bytes hfits hlength => Format.readDepth?_eq_some hfits hlength
  unfold Stage.depthPasses depthTarget? Scene.storedDepth
  rw [haimed.state]
  obtain ⟨htarget, hstored⟩ | ⟨h, value, htarget, hread, hstored⟩ := htested
  · rw [htarget, hstored]
    rfl
  · rw [htarget, hstored]
    simp only [depthAt, candidate, hread]
    rfl

/-- Stage and scene choose the same face. -/
theorem face_eq (hstate : q.state = g.state) : g.face f = q.face f := by
  unfold Stage.face Scene.face
  rw [hstate]
  rfl

/-- Stage and scene have the same stencil reference. -/
theorem reference_eq (hstate : q.state = g.state) : g.reference f = q.reference f := by
  unfold Stage.reference Scene.reference
  rw [hstate]
  rfl

/-- The verdict that a gate means, or its absence. -/
def verdictOf : Option Gate → Verdict
  | some gate => .fail gate.reason (gate.update.getD .keep)
  | none => .pass

/-- The tests turn a fragment away where the reference turns it away. -/
theorem judge_eq (haimed : g.Aimed r q f) :
    g.judge r f (q.candidate f)
      = .ok (q.storedStencil f r.texels, verdictOf (shut? (q.tests f r.texels))) := by
  have hnone : (q.storedStencil f r.texels).any
        (fun value => !(q.face f).accepts (q.reference f) value)
      = !(q.storedStencil f r.texels).all ((q.face f).accepts (q.reference f)) := by
    cases q.storedStencil f r.texels with
    | none => rfl
    | some value => rfl
  unfold judge
  rw [storedStencil_eq haimed]
  simp only [bind, Except.bind, test, shut?, tests, List.find?_cons, List.find?_nil,
    face_eq haimed.state, reference_eq haimed.state, depthPasses_eq haimed, hnone]
  cases (q.storedStencil f r.texels).all ((q.face f).accepts (q.reference f)) with
  | false => rfl
  | true =>
    cases (q.storedDepth f r.texels).all
        (q.state.depthStencil.depthCompare.testDepth (q.depthOf f)) with
    | false => rfl
    | true => rfl

/-! ## Writes -/

/-- Replacing what a target holds does what the reference does, when the update
and the reference's change agree on texels of fitting formats. -/
theorem Aims.revise {fits : Format → Bool} {h : Handle .surface} {surface : Option Surface}
    {aspect : Aspect} {change : Format → Bytes → Option Bytes}
    {update : Format → Bytes → Except Fault (Bytes × α)} {answer : α}
    {images : List (Handle .image)} (haims : Aims r fits f (some h) surface)
    (himages : ∀ s, surface = some s → s.image ∈ images)
    (hplain : ∀ format, fits format = true → format.isCompressed = false)
    (hupdate : ∀ format bytes, fits format = true → bytes.length = format.stride →
      ∃ new, change format bytes = some new ∧ update format bytes = .ok (new, answer) ∧
        new.length = bytes.length) :
    ∃ m r', Scene.revise f surface change r.texels = some m ∧
      perform (updateTexel h aspect f.x.toNat f.y.toNat update) r = (.ok answer, r') ∧
      r.Draws images m r' := by
  cases haims with
  | @bound _ s t hget htexel hspot hsited hfits =>
    obtain ⟨bytes, hread, hlength⟩ := hsited.read
    obtain ⟨new, hchange, hnew, hsame⟩ := hupdate s.format bytes hfits hlength
    obtain ⟨r', hperform, hdraws⟩ := perform_updateTexel hget htexel hsited
      (hplain s.format hfits) hread hnew (hsame.trans hlength) (himages s rfl)
    refine ⟨_, r', ?_, hperform, hdraws⟩
    simp [Scene.revise, hspot, hread, hchange]

/-- A target that is given what it holds stays as it is. -/
theorem Aims.revise_self {fits : Format → Bool} {target : Option (Handle .surface)}
    {surface : Option Surface} {change : Format → Bytes → Option Bytes}
    {read : Format → Bytes → Option α} {value : α} (haims : Aims r fits f target surface)
    (hstored : Scene.stored f r.texels surface read = some value)
    (hchange : ∀ format bytes, read format bytes = some value → change format bytes = some bytes) :
    Scene.revise f surface change r.texels = some r.texels := by
  cases haims with
  | unbound => rfl
  | @bound h s t hget htexel hspot hsited hfits =>
    obtain ⟨bytes, hread, -⟩ := hsited.read
    have hvalue : read s.format bytes = some value := by
      simpa [Scene.stored, hspot, hread] using hstored
    simp [Scene.revise, hspot, hread, hchange s.format bytes hvalue, Spot.write_self hread]

section Images

variable {s s' : Surface}

/-- The image of the colour target belongs to the scene. -/
theorem mem_images_color (hcolor : q.color = some s) : s.image ∈ q.images := by
  simp [Scene.images, surfaces, hcolor]

/-- The image of the depth target belongs to the scene. -/
theorem mem_images_depth (hdepth : q.depth = some s) : s.image ∈ q.images := by
  simp [Scene.images, surfaces, hdepth]

/-- The image of the stencil target belongs to the scene. -/
theorem mem_images_stencil (hstencil : q.stencil = some s) : s.image ∈ q.images := by
  simp [Scene.images, surfaces, hstencil]

/-- The image of a target has a fitting format. -/
theorem Aims.image {fits : Format → Bool} {target : Option (Handle .surface)}
    (haims : Aims r fits f target (some s)) :
    ∃ i, r.images.get? s.image = some i ∧ fits i.desc.format = true := by
  cases haims with
  | bound _ _ _ hsited hfits =>
    obtain ⟨i, hget, -, hformat, -⟩ := hsited
    exact ⟨i, hget, hformat ▸ hfits⟩

/-- A colour target and a stencil target are in different images. -/
theorem Aimed.images_ne (haimed : g.Aimed r q f) (hcolor : q.color = some s)
    (hstencil : q.stencil = some s') : s'.image ≠ s.image := by
  intro heq
  obtain ⟨i, hget, hrenderable⟩ := (hcolor ▸ haimed.color).image
  obtain ⟨i', hget', hhas⟩ := (hstencil ▸ haimed.stencil).image
  rw [heq, hget] at hget'
  obtain rfl := Option.some.inj hget'
  rw [Format.not_hasStencil_of_isColorRenderable hrenderable] at hhas
  cases hhas

end Images

/-- What is read of a target stays when a target in another image is revised. -/
theorem stored_revise {target other : Option Surface} {change : Format → Bytes → Option Bytes}
    {read : Format → Bytes → Option α} {m m' : Texels}
    (hne : ∀ s s', target = some s → other = some s' → s.image ≠ s'.image)
    (hrevise : Scene.revise f other change m = some m') :
    Scene.stored f m' target read = Scene.stored f m target read := by
  cases other with
  | none =>
    obtain rfl := Option.some.inj hrevise
    rfl
  | some s' =>
    obtain ⟨p', hspot', hrest⟩ := Option.bind_eq_some_iff.mp hrevise
    obtain ⟨bytes, -, hrest⟩ := Option.bind_eq_some_iff.mp hrest
    obtain ⟨new, -, hrest⟩ := Option.bind_eq_some_iff.mp hrest
    obtain rfl := Option.some.inj hrest
    cases target with
    | none => rfl
    | some s =>
      cases hspot : s.spot? f.x f.y with
      | none => simp [Scene.stored, hspot]
      | some p =>
        have himage : p.image ≠ p'.image := by
          rw [Surface.spot?_image hspot, Surface.spot?_image hspot']
          exact hne s s' rfl rfl
        simp [Scene.stored, hspot, Spot.read_write_of_image_ne himage]

/-- Updating the stencil value that was tested does what the reference does, as
long as it is still stored. -/
theorem updateStencil_draws (haimed : g.Aimed r q f) {tested : Option UInt8}
    (htested : ∀ value, tested = some value → q.state.depthStencil.stencilTest = true ∧
      Scene.stored f r.texels q.stencil Format.readStencil? = some value) (op : StencilOp) :
    ∃ m r', q.updateStencil f tested op r.texels = some m ∧
      perform (g.updateStencil f (q.candidate f) tested op) r = (.ok (), r') ∧
      r.Draws q.images m r' := by
  cases tested with
  | none =>
    refine ⟨r.texels, r, rfl, ?_, .refl r⟩
    unfold Stage.updateStencil
    cases g.stencilTarget? with
    | none => rfl
    | some h => rfl
  | some value =>
    obtain ⟨henabled, hstored⟩ := htested value rfl
    have haims := haimed.stencil
    cases htarget : g.targets.stencil with
    | none =>
      rw [htarget] at haims
      rw [haims.eq_none] at hstored
      cases hstored
    | some h =>
      rw [htarget] at haims
      have hpart : g.stencilTarget? = some h := by
        unfold stencilTarget?
        rw [← haimed.state, henabled, htarget]
        rfl
      unfold Stage.updateStencil Scene.updateStencil
      rw [hpart, face_eq haimed.state, reference_eq haimed.state]
      simp only
      by_cases hsame : op.apply value (q.reference f) (q.face f).writeMask = value
      · rw [if_pos hsame, hsame]
        refine ⟨r.texels, r, haims.revise_self hstored fun format bytes hread => ?_, rfl, .refl r⟩
        rw [Format.writeStencil_self hread]
        rfl
      · rw [if_neg hsame]
        refine haims.revise (fun s => mem_images_stencil)
          (fun format => Format.isCompressed_of_hasStencil) fun format bytes hfits hlength => ?_
        obtain ⟨new, hnew, hnewLength⟩ := Format.writeStencil_eq_ok hfits hlength
          (op.apply value (q.reference f) (q.face f).writeMask)
        exact ⟨new, by rw [hnew]; rfl, by rw [hnew]; rfl, hnewLength⟩

/-- What is tested is stored, and the test is on. -/
theorem storedStencil_eq_some {m : Texels} {value : UInt8}
    (htested : q.storedStencil f m = some value) :
    q.state.depthStencil.stencilTest = true ∧
      Scene.stored f m q.stencil Format.readStencil? = some value := by
  unfold Scene.storedStencil at htested
  by_cases henabled : q.state.depthStencil.stencilTest = true
  · rw [if_pos henabled] at htested
    exact ⟨henabled, htested⟩
  · rw [if_neg henabled] at htested
    cases htested

section Unit

variable {u : BlendUnit}

/-- Blending writes what the reference writes and leaves the fragment's depth. -/
theorem writeColor_draws (haimed : g.Aimed r q f)
    (hunit : BlendCompiler.unitOf q.state.pipelineState = .ok u) (shaded : Color) :
    ∃ m r', q.blendColor f shaded r.texels = some m ∧
      perform (g.writeColor u (q.candidate f) shaded.clampUnit) r = (.ok (q.depthOf f), r') ∧
      r.Draws q.images m r' := by
  have hmask : u.state.attachment.colorMask = q.state.blend.colorMask := by
    rw [(BlendCompiler.unitOf_program hunit).1]
    rfl
  have hinvoke : ∀ color, u.invoke ⟨color, q.depthOf f⟩
        (g.blendInput (q.candidate f) shaded.clampUnit)
      = q.state.pipelineState.evaluate ⟨color, q.depthOf f⟩
        ⟨shaded.clampUnit, q.depthOf f, q.state.blendConstant⟩ := by
    intro color
    rw [(BlendCompiler.invoke_unitOf hunit _ _).2, blendInput, ← haimed.state]
    rfl
  have hdepth : ∀ color, (u.invoke ⟨color, q.depthOf f⟩
      (g.blendInput (q.candidate f) shaded.clampUnit)).depth = q.depthOf f := by
    intro color
    rw [hinvoke]
    exact ite_self _
  have haims := haimed.color
  unfold writeColor blendColor
  cases htarget : g.targets.color with
  | none =>
    rw [htarget] at haims
    rw [haims.eq_none]
    refine ⟨r.texels, r, rfl, ?_, .refl r⟩
    simp only [perform_pure]
    exact congrArg (fun depth => (Except.ok depth, r)) (hdepth _)
  | some h =>
    rw [htarget] at haims
    refine haims.revise (fun s => mem_images_color)
      (fun format => Format.isCompressed_of_isColorRenderable) fun format bytes hfits hlength => ?_
    obtain ⟨color, hcolor⟩ := Format.decode?_eq_some hfits hlength
    obtain ⟨new, hnew, hnewLength⟩ := Format.encode_eq_ok hfits hlength
      (q.state.pipelineState.evaluate ⟨color, q.depthOf f⟩
        ⟨shaded.clampUnit, q.depthOf f, q.state.blendConstant⟩).color q.state.blend.colorMask
    refine ⟨new, ?_, ?_, hnewLength⟩
    · simp only [hcolor, Option.bind_eq_bind, Option.bind_some, hnew]
      rfl
    · have hpixel := hinvoke color
      have hpixelDepth := hdepth color
      unfold blendTexel
      simp only [hcolor]
      change (format.encode (u.invoke ⟨color, q.depthOf f⟩ _).color _ bytes >>= _) = _
      rw [hpixel, hmask, hnew]
      rw [hpixel] at hpixelDepth
      change Except.ok (new, (u.invoke ⟨color, q.depthOf f⟩ _).depth) = _
      rw [hpixel, hpixelDepth]

/-- The depth is stored where the reference stores it. -/
theorem writeDepth_draws (haimed : g.Aimed r q f)
    (hunit : BlendCompiler.unitOf q.state.pipelineState = .ok u) :
    ∃ m r', q.storeDepth f r.texels = some m ∧
      perform (g.writeDepth u (q.candidate f) (q.depthOf f)) r = (.ok (), r') ∧
      r.Draws q.images m r' := by
  have hwrite : u.state.depthWrite = q.state.depthStencil.depthWrite := by
    rw [(BlendCompiler.unitOf_program hunit).1]
    rfl
  have haims := haimed.depth
  unfold Stage.writeDepth storeDepth
  rw [hwrite]
  cases htarget : g.targets.depth with
  | none =>
    rw [htarget] at haims
    rw [haims.eq_none]
    refine ⟨r.texels, r, ?_, rfl, .refl r⟩
    exact ite_self _
  | some h =>
    rw [htarget] at haims
    cases q.state.depthStencil.depthWrite with
    | false => exact ⟨r.texels, r, rfl, rfl, .refl r⟩
    | true =>
      simp only [if_true]
      refine haims.revise (fun s => mem_images_depth)
        (fun format => Format.isCompressed_of_hasDepth) fun format bytes hfits hlength => ?_
      obtain ⟨new, hnew, hnewLength⟩ := Format.writeDepth_eq_ok hfits hlength (q.depthOf f)
      exact ⟨new, by rw [hnew]; rfl, by rw [hnew]; rfl, hnewLength⟩

/-- All writes of a fragment that passed every stage are the reference's, in the
same order. -/
theorem writePixel_draws (haimed : g.Aimed r q f)
    (hunit : BlendCompiler.unitOf q.state.pipelineState = .ok u) (shaded : Color) :
    ∃ blended passed m r', q.blendColor f shaded r.texels = some blended ∧
      q.updateStencil f (q.storedStencil f r.texels) (q.face f).passOp blended = some passed ∧
      q.storeDepth f passed = some m ∧
      perform (g.writePixel u f (q.candidate f) (q.storedStencil f r.texels) shaded.clampUnit) r
        = (.ok (), r') ∧ r.Draws q.images m r' := by
  obtain ⟨blended, r₁, hblended, hperform₁, hdraws₁⟩ := writeColor_draws haimed hunit shaded
  have haimed₁ := haimed.redrawn hdraws₁.redrawn
  have htested : ∀ value, q.storedStencil f r.texels = some value →
      q.state.depthStencil.stencilTest = true ∧
        Scene.stored f r₁.texels q.stencil Format.readStencil? = some value := by
    intro value hvalue
    obtain ⟨henabled, hstored⟩ := storedStencil_eq_some hvalue
    refine ⟨henabled, ?_⟩
    rw [hdraws₁.texels, stored_revise (fun s s' hs hs' => haimed.images_ne hs' hs) hblended]
    exact hstored
  obtain ⟨passed, r₂, hpassed, hperform₂, hdraws₂⟩ :=
    updateStencil_draws haimed₁ htested (q.face f).passOp
  obtain ⟨m, r₃, hm, hperform₃, hdraws₃⟩ :=
    writeDepth_draws (haimed₁.redrawn hdraws₂.redrawn) hunit
  rw [hdraws₁.texels] at hpassed
  rw [hdraws₂.texels] at hm
  refine ⟨blended, passed, m, r₃, hblended, hpassed, hm, ?_, (hdraws₁.trans hdraws₂).trans hdraws₃⟩
  unfold writePixel
  rw [perform_bind_ok hperform₁, face_eq haimed.state, perform_bind_ok hperform₂, hperform₃]

end Unit

end Stage

end PixelPipeline
