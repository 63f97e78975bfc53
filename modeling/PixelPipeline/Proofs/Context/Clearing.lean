import PixelPipeline.Proofs.Context.Fragments
import PixelPipeline.Proofs.Image.Filling

/-!
# Two ways to clear a colour

A colour clear with all channels fills the layer when the scissor test is off, and
goes through the window, texel by texel, when it is on.  `Painted` says what either
leaves: one texel everywhere in a region, and everything else as it was.  The way
through the window paints the first slice of the layer, which is what a surface shows;
the fill paints every slice.

* `Reachable.clearColor_paths` — with a scissor that covers the surface, both leave
  the same bytes if the other slices hold the colour already, and only then;
* `clearColor_slices` — a volume of two slices in which they do not.
-/

namespace PixelPipeline

namespace Resources

variable {r r' r'' : Resources} {h : Handle .image} {region region' : TexelIndex → Prop}
  {texel : Bytes}

/-- The texels of an image in a region hold one texel, and nothing else changed. -/
structure Painted (r : Resources) (h : Handle .image) (region : TexelIndex → Prop) (texel : Bytes)
    (r' : Resources) : Prop where
  redrawn : r.Redrawn r'
  inside : ∀ t, region t → r'.texels h t = some texel
  outside : ∀ t, ¬ region t → r'.texels h t = r.texels h t
  others : ∀ k, k ≠ h → r'.images.get? k = r.images.get? k

namespace Painted

/-- Painting no region changes nothing. -/
theorem nothing (r : Resources) (hnone : ∀ t, ¬ region t) : r.Painted h region texel r :=
  ⟨.refl r, fun t ht => (hnone t ht).elim, fun _ _ => rfl, fun _ _ => rfl⟩

/-- One region after the other. -/
theorem trans (hfirst : r.Painted h region texel r') (hrest : r'.Painted h region' texel r'') :
    r.Painted h (fun t => region t ∨ region' t) texel r'' where
  redrawn := hfirst.redrawn.trans hrest.redrawn
  inside t ht := by
    by_cases hlater : region' t
    · exact hrest.inside t hlater
    · rw [hrest.outside t hlater]
      exact hfirst.inside t (ht.resolve_right hlater)
  outside t ht := by
    rw [hrest.outside t fun hlater => ht (.inr hlater)]
    exact hfirst.outside t fun hbefore => ht (.inl hbefore)
  others k hk := (hrest.others k hk).trans (hfirst.others k hk)

/-- Painting depends on the texels of the region only. -/
theorem congr (hpainted : r.Painted h region texel r') (hsame : ∀ t, region' t ↔ region t) :
    r.Painted h region' texel r' where
  redrawn := hpainted.redrawn
  inside t ht := hpainted.inside t ((hsame t).mp ht)
  outside t ht := hpainted.outside t fun hin => ht ((hsame t).mpr hin)
  others := hpainted.others

/-- Painting a larger region leaves the same images if what it has in addition held
the texel before, and only then. -/
theorem same_iff {i : Image} (hpainted : r.Painted h region texel r')
    (hpainted' : r.Painted h region' texel r'') (hget : r.images.get? h = some i)
    (hstored : i.Stored) (hlarger : ∀ t, region' t → region t) :
    (∀ k, r'.images.get? k = r''.images.get? k) ↔
      ∀ t, region t → ¬ region' t → i.texel? t = some texel := by
  have hbefore : ∀ t, r.texels h t = i.texel? t := by
    intro t
    unfold texels
    rw [hget]
    rfl
  constructor
  · intro hsame t ht ht'
    have htexels : r'.texels h t = r''.texels h t := by
      unfold texels
      rw [hsame h]
    rw [← hbefore t, ← hpainted'.outside t ht', ← htexels]
    exact hpainted.inside t ht
  · intro hheld k
    by_cases hk : k = h
    · obtain ⟨i', hget', hframe'⟩ := hpainted.redrawn.image hget
      obtain ⟨i'', hget'', hframe''⟩ := hpainted'.redrawn.image hget
      have htexels : ∀ t, i'.texel? t = i''.texel? t := by
        intro t
        have hread' : r'.texels h t = i'.texel? t := by
          unfold texels
          rw [hget']
          rfl
        have hread'' : r''.texels h t = i''.texel? t := by
          unfold texels
          rw [hget'']
          rfl
        rw [← hread', ← hread'']
        by_cases ht' : region' t
        · rw [hpainted.inside t (hlarger t ht'), hpainted'.inside t ht']
        · rw [hpainted'.outside t ht', hbefore]
          by_cases ht : region t
          · rw [hpainted.inside t ht, hheld t ht ht']
          · rw [hpainted.outside t ht, hbefore]
      have heq : i' = i'' := (hstored.of_frame hframe'').eq_of_texels
        (hframe'.trans hframe''.symm) htexels
      rw [hk, hget', hget'', heq]
    · rw [hpainted.others k hk, hpainted'.others k hk]

end Painted

end Resources

/-- The rectangle contains every window position of the surface. -/
def ScissorRect.Covers (rect : ScissorRect) (s : Surface) : Prop :=
  ∀ x < s.width, ∀ y < s.height, rect.contains (Int.bmod x (2 ^ 32)) (Int.bmod y (2 ^ 32)) = true

namespace RenderContext

open Stage Resources

variable {c : RenderContext} {r r' r'' : Resources} {s : Surface} {i : Image} {texel : Bytes}

/-- What a clear finds: a surface inside a live image. -/
structure Clearable (r : Resources) (s : Surface) (i : Image) : Prop where
  image : r.images.get? s.image = some i
  stored : i.Stored
  shows : s.Of i.desc
  renderable : s.format.isColorRenderable = true

/-- A surface stays clearable when images are redrawn. -/
theorem Clearable.redrawn (hclearable : Clearable r s i) (hredrawn : r.Redrawn r') :
    ∃ i', Clearable r' s i' := by
  obtain ⟨i', hget, hframe⟩ := hredrawn.image hclearable.image
  have hdesc : i'.desc = i.desc := congrArg Prod.fst hframe
  exact ⟨i', hget, hclearable.stored.of_frame hframe, hdesc ▸ hclearable.shows,
    hclearable.renderable⟩

/-- The texels of the surface's layer, in every slice. -/
def InLayer (s : Surface) (i : Image) (t : TexelIndex) : Prop :=
  i.Contains t ∧ t.level = s.level ∧ t.layer = s.layer

/-- The texels that the surface shows. -/
def InWindow (s : Surface) (i : Image) (t : TexelIndex) : Prop := InLayer s i t ∧ t.z = 0

/-! ## The fill -/

/-- **Filling paints the layer.** -/
theorem Clearable.fillColor (hclearable : Clearable r s i) {color : Color} {mask : ColorMask}
    (hencode : s.format.encode color mask (List.replicate s.format.stride 0) = .ok texel)
    (hlength : texel.length = s.format.stride) :
    ∃ r', Stage.perform (RenderContext.fillColor s color mask) r = (.ok (), r') ∧
      r.Painted s.image (InLayer s i) texel r' := by
  let fill := fun image : Image => image.fill s.level s.layer texel
  have hredrawn : r.Redrawn (r.modifyImage s.image fill) :=
    r.redrawn_modifyImage s.image fun image _ => image.frame_fill s.level s.layer texel
  have hread : ∀ t, (r.modifyImage s.image fill).texels s.image t = (fill i).texel? t := by
    intro t
    change (r.images.modify s.image fill).get? s.image >>= _ = _
    rw [Arena.get?_modify, if_pos rfl, hclearable.image]
    rfl
  have hbefore : ∀ t, r.texels s.image t = i.texel? t := by
    intro t
    unfold Resources.texels
    rw [hclearable.image]
    rfl
  have hfill : ∀ t, i.Contains t → (fill i).texel? t
      = if t.level = s.level ∧ t.layer = s.layer then some texel else i.texel? t := fun t ht =>
    hclearable.stored.texel?_fill hclearable.shows.level hclearable.shows.layer
      (hlength.trans (congrArg Format.stride hclearable.shows.format)) ht
  refine ⟨r.modifyImage s.image fill, ?_, hredrawn, fun t ht => ?_, fun t ht => ?_, fun k hk => ?_⟩
  · unfold RenderContext.fillColor
    rw [hencode, perform_bind_ok (perform_lift _ r), perform_bind_ok (perform_get r),
      image_eq_ok.mpr hclearable.image, perform_bind_ok (perform_lift _ r), perform_modify]
  · rw [hread, hfill t ht.1, if_pos ht.2]
  · rw [hread, hbefore]
    by_cases hcontains : i.Contains t
    · rw [hfill t hcontains, if_neg fun hlayer => ht ⟨hcontains, hlayer⟩]
    · have hdesc : (fill i).desc = i.desc := congrArg Prod.fst (i.frame_fill ..)
      rw [Image.texel?_eq_none hcontains,
        Image.texel?_eq_none fun hfilled => hcontains (hfilled.congr hdesc.symm)]
  · change (r.images.modify s.image fill).get? k = _
    rw [Arena.get?_modify, if_neg hk]

/-! ## The window -/

/-- A window position shows one texel. -/
theorem texelIndex?_eq_some {x y : Nat} {t : TexelIndex} :
    s.texelIndex? x y = some t ↔
      (x < s.width ∧ y < s.height) ∧ ⟨s.level, s.layer, x, s.height - 1 - y, 0⟩ = t := by
  unfold Surface.texelIndex? Surface.texelCoord?
  by_cases hinside : x < s.width ∧ y < s.height
  · rw [if_pos hinside]
    simp [hinside]
  · rw [if_neg hinside]
    simp [hinside]

/-- The window shows the first slice of the layer. -/
theorem inWindow_iff (hshows : s.Of i.desc) {t : TexelIndex} :
    InWindow s i t ↔ ∃ x y, (x < s.width ∧ y < s.height) ∧ s.texelIndex? x y = some t := by
  have hwidth := hshows.width
  have hheight := hshows.height
  constructor
  · rintro ⟨⟨ht, hlevel, hlayer⟩, hz⟩
    have hx := ht.x
    have hy := ht.y
    rw [hlevel] at hx hy
    have hinside : t.x < s.width ∧ s.height - 1 - t.y < s.height := by omega
    refine ⟨t.x, s.height - 1 - t.y, hinside, texelIndex?_eq_some.mpr ⟨hinside, ?_⟩⟩
    have hback : s.height - 1 - (s.height - 1 - t.y) = t.y := by omega
    rw [hback, ← hlevel, ← hlayer, ← hz]
  · rintro ⟨x, y, -, htexel⟩
    obtain ⟨⟨hx, hy⟩, rfl⟩ := texelIndex?_eq_some.mp htexel
    refine ⟨⟨⟨hshows.level, hshows.layer, ?_, ?_, ?_⟩, rfl, rfl⟩, rfl⟩
    · simp only
      omega
    · simp only
      omega
    · simp only [ImageDesc.levelExtent]
      split <;> omega

/-- One step paints the texel at its position, if the surface shows one. -/
theorem Clearable.clearTexel (hclearable : Clearable r s i)
    {change : Bytes → Except Fault Bytes} (hlength : texel.length = s.format.stride)
    (hchange : ∀ bytes, bytes.length = s.format.stride → change bytes = .ok texel) (x y : Nat) :
    ∃ r', Stage.perform (RenderContext.clearTexel s change x y) r = (.ok (), r') ∧
      r.Painted s.image (fun t => s.texelIndex? x y = some t) texel r' := by
  have hformat := hclearable.shows.format
  unfold RenderContext.clearTexel
  rw [perform_bind_ok (perform_get r), image_eq_ok.mpr hclearable.image,
    perform_bind_ok (perform_lift _ r)]
  cases htexel : s.texelIndex? x y with
  | none => exact ⟨r, rfl, .nothing r fun t ht => by cases ht⟩
  | some t =>
    have hcontains : i.Contains t :=
      ((inWindow_iff hclearable.shows).mpr
        ⟨x, y, (texelIndex?_eq_some.mp htexel).1, htexel⟩).1.1
    obtain ⟨bytes, hread, hbytes⟩ := hclearable.stored.texel? hcontains
    let p : Spot := ⟨s.format, s.image, t⟩
    have hsited : r.Sited p := ⟨i, hclearable.image, hclearable.stored,
      hformat.symm, hcontains⟩
    have hplain := Format.isCompressed_of_isColorRenderable hclearable.renderable
    have hset : r.setSurfaceTexel s x y texel
        = r.modifyImage s.image fun image => image.setTexel t texel := by
      unfold Resources.setSurfaceTexel
      rw [htexel]
    have hwrite : (r.setSurfaceTexel s x y texel).texels = p.write texel r.texels := by
      rw [hset]
      exact hsited.write hplain hlength
    refine ⟨r.setSurfaceTexel s x y texel, ?_, r.redrawn_setSurfaceTexel s x y texel,
      fun t' ht' => ?_, fun t' ht' => ?_, fun k hk => ?_⟩
    · simp only [Option.bind_eq_bind, Option.bind_some, hread]
      rw [hchange bytes (hbytes.trans (congrArg Format.stride hformat.symm)),
        perform_bind_ok (perform_lift _ r), perform_modify]
    · rw [hwrite]
      exact if_pos ⟨rfl, (Option.some.inj ht').symm⟩
    · rw [hwrite]
      exact if_neg fun hsame => ht' (congrArg some hsame.2.symm)
    · rw [hset]
      change (r.images.modify s.image _).get? k = _
      rw [Arena.get?_modify, if_neg hk]

/-- Steps in a row paint the texels at their positions. -/
theorem Clearable.clearTexels (hclearable : Clearable r s i)
    {change : Bytes → Except Fault Bytes} (hlength : texel.length = s.format.stride)
    (hchange : ∀ bytes, bytes.length = s.format.stride → change bytes = .ok texel)
    (places : List (Nat × Nat)) :
    ∃ r', Stage.perform (places.forM fun p => RenderContext.clearTexel s change p.1 p.2) r
        = (.ok (), r') ∧
      r.Painted s.image (fun t => ∃ p ∈ places, s.texelIndex? p.1 p.2 = some t) texel r' := by
  induction places generalizing r i with
  | nil => exact ⟨r, rfl, .nothing r fun t ⟨p, hmem, _⟩ => by cases hmem⟩
  | cons p rest ih =>
    obtain ⟨r', hfirst, hpainted⟩ := hclearable.clearTexel hlength hchange p.1 p.2
    obtain ⟨i', hclearable'⟩ := hclearable.redrawn hpainted.redrawn
    obtain ⟨r'', hrest, hpainted'⟩ := ih hclearable'
    refine ⟨r'', (perform_bind_ok hfirst).trans hrest, (hpainted.trans hpainted').congr fun t => ?_⟩
    simp only [List.mem_cons, exists_eq_or_imp]

/-- The positions of a surface lie within its extents. -/
theorem mem_positions {p : Nat × Nat} : p ∈ positions s ↔ p.1 < s.width ∧ p.2 < s.height := by
  unfold positions
  simp only [List.mem_flatMap, List.mem_range, List.mem_map]
  constructor
  · rintro ⟨y, hy, x, hx, rfl⟩
    exact ⟨hx, hy⟩
  · rintro ⟨hx, hy⟩
    exact ⟨p.2, hy, p.1, hx, rfl⟩

/-- **The way through the window paints what the surface shows**, if the scissor leaves
no position out. -/
theorem Clearable.clearWith (hclearable : Clearable r s i)
    {change : Bytes → Except Fault Bytes} (hlength : texel.length = s.format.stride)
    (hchange : ∀ bytes, bytes.length = s.format.stride → change bytes = .ok texel)
    (hcovers : ∀ x < s.width, ∀ y < s.height, c.clearSkips x y = false) :
    ∃ r', Stage.perform (c.clearWith s change) r = (.ok (), r') ∧
      r.Painted s.image (InWindow s i) texel r' := by
  obtain ⟨r', hperform, hpainted⟩ := hclearable.clearTexels hlength hchange
    ((positions s).filter fun p => !c.clearSkips p.1 p.2)
  refine ⟨r', hperform, hpainted.congr fun t => ?_⟩
  rw [inWindow_iff hclearable.shows]
  constructor
  · rintro ⟨x, y, ⟨hx, hy⟩, htexel⟩
    refine ⟨(x, y), List.mem_filter.mpr ⟨mem_positions.mpr ⟨hx, hy⟩, ?_⟩, htexel⟩
    rw [hcovers x hx y hy]
    rfl
  · rintro ⟨p, hmem, htexel⟩
    exact ⟨p.1, p.2, mem_positions.mp (List.mem_filter.mp hmem).1, htexel⟩

/-! ## Clears of a context -/

/-- The context with the scissor test off. -/
def unscissored (c : RenderContext) : RenderContext :=
  { c with state.rasterizer.scissorTest := false }

/-- The context with the scissor test on and this rectangle. -/
def scissoredTo (c : RenderContext) (rect : ScissorRect) : RenderContext :=
  { c with
    state.rasterizer.scissorTest := true
    state.scissor := rect }

/-- A clear of a live target writes the way that the state asks for. -/
theorem clearColor_of_perform {h : Handle .surface} {color : Color}
    (htarget : c.targets.color = some h) (hsurface : c.resources.surfaces.get? h = some s)
    (hperform : Stage.perform
      (if c.state.blend.colorMask = .all ∧ !c.state.rasterizer.scissorTest then
        fillColor s color c.state.blend.colorMask
      else c.clearWith s (s.format.encode color c.state.blend.colorMask)) c.resources
        = (.ok (), r')) :
    c.clearColor color = (.ok (), { c with resources := r' }) := by
  have hwrites := perform_lift (c.resources.surface h) c.resources
  rw [surface_eq_ok.mpr hsurface] at hwrites
  have hboth : Stage.perform (do
      let s ← c.resources.surface h
      if c.state.blend.colorMask = .all ∧ !c.state.rasterizer.scissorTest then
        fillColor s color c.state.blend.colorMask
      else c.clearWith s (s.format.encode color c.state.blend.colorMask)) c.resources
        = (.ok (), r') := by
    rw [surface_eq_ok.mpr hsurface, perform_bind_ok hwrites]
    exact hperform
  unfold clearColor
  rw [htarget]
  exact congrArg (fun answer => (answer.1, { c with resources := answer.2 })) hboth

/-- With the scissor test off, a clear of all channels paints the layer. -/
theorem Clearable.clearColor_unscissored (hclearable : Clearable c.resources s i)
    {h : Handle .surface} {color : Color} (htarget : c.targets.color = some h)
    (hsurface : c.resources.surfaces.get? h = some s) (hmask : c.state.blend.colorMask = .all)
    (hencode : s.format.encode color .all (List.replicate s.format.stride 0) = .ok texel)
    (hlength : texel.length = s.format.stride) :
    ∃ r', c.unscissored.clearColor color = (.ok (), { c.unscissored with resources := r' }) ∧
      c.resources.Painted s.image (InLayer s i) texel r' := by
  obtain ⟨r', hfill, hpainted⟩ := hclearable.fillColor hencode hlength
  refine ⟨r', ?_, hpainted⟩
  apply clearColor_of_perform (c := c.unscissored) htarget hsurface
  change Stage.perform (if c.state.blend.colorMask = .all ∧ !false then
    RenderContext.fillColor s color c.state.blend.colorMask else _) _ = _
  rw [hmask, if_pos ⟨rfl, rfl⟩]
  exact hfill

/-- With a scissor that covers the surface, it paints what the surface shows. -/
theorem Clearable.clearColor_scissoredTo (hclearable : Clearable c.resources s i)
    {h : Handle .surface} {color : Color} (htarget : c.targets.color = some h)
    (hsurface : c.resources.surfaces.get? h = some s) (hmask : c.state.blend.colorMask = .all)
    {rect : ScissorRect} (hcovers : rect.Covers s)
    (hencode : s.format.encode color .all (List.replicate s.format.stride 0) = .ok texel)
    (hlength : texel.length = s.format.stride) :
    ∃ r', (c.scissoredTo rect).clearColor color
        = (.ok (), { c.scissoredTo rect with resources := r' }) ∧
      c.resources.Painted s.image (InWindow s i) texel r' := by
  -- all channels are written, so what was there does not matter
  have hchange : ∀ bytes, bytes.length = s.format.stride →
      s.format.encode color .all bytes = .ok texel := by
    intro bytes hbytes
    rw [← hencode]
    exact Format.encode_all hclearable.renderable List.length_replicate hbytes color
  have hskips : ∀ x < s.width, ∀ y < s.height, (c.scissoredTo rect).clearSkips x y = false := by
    intro x hx y hy
    have hinside := hcovers x hx y hy
    unfold clearSkips Stage.scissored
    exact congrArg (fun inside => true && !inside) hinside
  obtain ⟨r', hwith, hpainted⟩ := hclearable.clearWith hlength hchange hskips
  refine ⟨r', ?_, hpainted⟩
  apply clearColor_of_perform (c := c.scissoredTo rect) htarget hsurface
  change Stage.perform (if c.state.blend.colorMask = .all ∧ !true then
    RenderContext.fillColor s color c.state.blend.colorMask
    else (c.scissoredTo rect).clearWith s (s.format.encode color c.state.blend.colorMask)) _ = _
  rw [hmask, if_neg fun hplain => by cases hplain.2]
  exact hwith

/-- The layer and its first slice, painted alike, agree if the other slices held the texel
before, and only then. -/
theorem Clearable.same_iff (hclearable : Clearable r s i)
    (hwhole : r.Painted s.image (InLayer s i) texel r')
    (hsingle : r.Painted s.image (InWindow s i) texel r'') :
    (∀ k, r'.images.get? k = r''.images.get? k) ↔
      ∀ t, InLayer s i t → t.z ≠ 0 → i.texel? t = some texel := by
  rw [hwhole.same_iff hsingle hclearable.image hclearable.stored fun t ht => ht.1]
  refine forall_congr' fun t => ⟨fun hheld ht hz => ?_, fun hheld ht hother => ?_⟩
  · exact hheld ht fun hwindow => hz hwindow.2
  · exact hheld ht fun hz => hother ⟨ht, hz⟩

/-- Only the levels of volumes have slices behind the first one. -/
theorem InLayer.z_eq_zero {t : TexelIndex} (ht : InLayer s i t) (hflat : i.desc.imageType ≠ .d3) :
    t.z = 0 := by
  have hdepth := ht.1.z
  simp only [ImageDesc.levelExtent, if_neg hflat] at hdepth
  omega

/-- A live colour target is found by a clear. -/
theorem Coherent.clearable (hcoherent : c.Coherent) {h : Handle .surface}
    (htarget : c.targets.color = some h) (hsurface : c.resources.surfaces.get? h = some s)
    (himage : c.resources.images.get? s.image = some i) : Clearable c.resources s i where
  image := himage
  stored := hcoherent.resources.stored _ i himage
  shows := by
    obtain ⟨i', himage', hof⟩ := hcoherent.resources.drawn h s hsurface
    obtain rfl := Option.some.inj (himage'.symm.trans himage)
    exact hof
  renderable := (hcoherent.color h htarget).format s hsurface

/-- **A colour clear leaves the same bytes on either way if the other slices of the layer
hold the colour already, and only then.**  Both succeed; the fill paints the layer, the
way through the window its first slice; and only the levels of volumes have another. -/
theorem Reachable.clearColor_paths (hreachable : c.Reachable) {h : Handle .surface}
    (htarget : c.targets.color = some h) (hsurface : c.resources.surfaces.get? h = some s)
    (himage : c.resources.images.get? s.image = some i)
    (hmask : c.state.blend.colorMask = .all) {rect : ScissorRect} (hcovers : rect.Covers s)
    (color : Color) :
    let whole := c.unscissored.clearColor color
    let single := (c.scissoredTo rect).clearColor color
    whole.1 = .ok () ∧ single.1 = .ok () ∧
      ∃ texel, s.format.encode color .all (List.replicate s.format.stride 0) = .ok texel ∧
        c.resources.Painted s.image (InLayer s i) texel whole.2.resources ∧
        c.resources.Painted s.image (InWindow s i) texel single.2.resources ∧
        ((∀ k, whole.2.resources.images.get? k = single.2.resources.images.get? k) ↔
          ∀ t, InLayer s i t → t.z ≠ 0 → i.texel? t = some texel) ∧
        (i.desc.imageType ≠ .d3 →
          ∀ k, whole.2.resources.images.get? k = single.2.resources.images.get? k) := by
  intro whole single
  have hclearable := hreachable.coherent.clearable htarget hsurface himage
  have hzeros : (List.replicate s.format.stride (0 : UInt8)).length = s.format.stride :=
    List.length_replicate
  obtain ⟨texel, hencode, htexel⟩ :=
    Format.encode_eq_ok hclearable.renderable hzeros color .all
  have hlength : texel.length = s.format.stride := htexel.trans hzeros
  obtain ⟨r', hwhole, hpainted⟩ :=
    hclearable.clearColor_unscissored htarget hsurface hmask hencode hlength
  obtain ⟨r'', hsingle, hpainted'⟩ :=
    hclearable.clearColor_scissoredTo htarget hsurface hmask hcovers hencode hlength
  have hsame := hclearable.same_iff hpainted hpainted'
  have hanswers : whole = (.ok (), { c.unscissored with resources := r' }) ∧
      single = (.ok (), { c.scissoredTo rect with resources := r'' }) := ⟨hwhole, hsingle⟩
  rw [hanswers.1, hanswers.2]
  exact ⟨rfl, rfl, texel, hencode, hpainted, hpainted', hsame, fun hflat =>
    hsame.mpr fun t ht hz => (hz (ht.z_eq_zero hflat)).elim⟩

/-! ## A layer between others -/

/-- Three layers of two rows of two texels, with a second level. -/
def stackDesc : ImageDesc := ((ImageDesc.d2 .r8Unorm 2 2).withLayers 3).withLevels 2

/-- The array of such an image. -/
def stackImages (data : Array UInt8) : Arena .image Image := ⟨#[⟨1, some ⟨stackDesc, data⟩⟩], []⟩

/-- A context that draws to the layer in the middle, with a value in the layer before. -/
def stack : RenderContext where
  settings := ⟨1, 1, 1, false⟩
  resources := ⟨stackImages #[1, 2, 3, 4, 0, 0, 0, 0, 0, 0, 0, 0, 0, 0, 0], .empty, .empty,
    ⟨#[⟨1, some ⟨⟨1, 1⟩, .r8Unorm, 0, 1, 2, 2⟩⟩], []⟩⟩
  units := .create 1
  cache := .create (.new false) 1 1
  targets := ⟨some ⟨1, 1⟩, none, none⟩
  current := none
  state := default

/-- The stack can come to be. -/
theorem stack_reachable : stack.Reachable :=
  reachable_of_setup
    [.createImage 15 stackDesc, .upload ⟨1, 1⟩ 0 0 [1, 2, 3, 4], .createSurface ⟨1, 1⟩ 0 1] rfl rfl rfl rfl rfl

/-- Either way clears both rows of the layer, and neither the layers around it nor the other
level. -/
theorem clearColor_paths_stack :
    let white : Color := .mk .one .one .one .one
    let whole := stack.unscissored.clearColor white
    let single := (stack.scissoredTo ⟨0, 0, 2, 2⟩).clearColor white
    ScissorRect.Covers ⟨0, 0, 2, 2⟩ ⟨⟨1, 1⟩, .r8Unorm, 0, 1, 2, 2⟩ ∧
      whole.1 = .ok () ∧ single.1 = .ok () ∧
      (single.2.resources.images.get? ⟨1, 1⟩).map Image.data
        = some #[1, 2, 3, 4, 255, 255, 255, 255, 0, 0, 0, 0, 0, 0, 0] ∧
      ∀ k, whole.2.resources.images.get? k = single.2.resources.images.get? k := by
  intro white whole single
  have hcovers : ScissorRect.Covers ⟨0, 0, 2, 2⟩ ⟨⟨1, 1⟩, .r8Unorm, 0, 1, 2, 2⟩ := by
    unfold ScissorRect.Covers
    decide
  obtain ⟨hwhole, hsingle, texel, -, -, -, -, hflat⟩ :=
    stack_reachable.clearColor_paths (h := ⟨1, 1⟩) rfl rfl rfl rfl hcovers white
  have hdata : (single.2.resources.images.get? ⟨1, 1⟩).map Image.data
      = some #[1, 2, 3, 4, 255, 255, 255, 255, 0, 0, 0, 0, 0, 0, 0] := by decide +kernel
  exact ⟨hcovers, hwhole, hsingle, hdata, hflat (by decide)⟩

/-! ## Two slices -/

/-- A volume of two texels, one behind the other. -/
def slabImages : Arena .image Image := ⟨#[⟨1, some ⟨.d3 .r8Unorm 1 1 2, #[0, 0]⟩⟩], []⟩

/-- A context that draws to the first slice of the volume. -/
def slab : RenderContext where
  settings := ⟨1, 1, 1, false⟩
  resources := ⟨slabImages, .empty, .empty, ⟨#[⟨1, some ⟨⟨1, 1⟩, .r8Unorm, 0, 0, 1, 1⟩⟩], []⟩⟩
  units := .create 1
  cache := .create (.new false) 1 1
  targets := ⟨some ⟨1, 1⟩, none, none⟩
  current := none
  state := default

/-- The slab can come to be. -/
theorem slab_reachable : slab.Reachable :=
  reachable_of_setup
    [.createImage 2 (.d3 .r8Unorm 1 1 2), .createSurface ⟨1, 1⟩ 0 0] rfl rfl rfl rfl rfl

/-- **The fill reaches the slice behind the one that the surface shows**, and a clear
with a scissor that covers the surface does not. -/
theorem clearColor_slices :
    let white : Color := .mk .one .one .one .one
    let whole := slab.unscissored.clearColor white
    let single := (slab.scissoredTo ⟨0, 0, 1, 1⟩).clearColor white
    slab.Reachable ∧ slab.state.blend.colorMask = .all ∧
      slab.resources.surfaces.get? ⟨1, 1⟩ = some ⟨⟨1, 1⟩, .r8Unorm, 0, 0, 1, 1⟩ ∧
      slab.targets.color = some ⟨1, 1⟩ ∧
      ScissorRect.Covers ⟨0, 0, 1, 1⟩ ⟨⟨1, 1⟩, .r8Unorm, 0, 0, 1, 1⟩ ∧
      whole.1 = .ok () ∧ single.1 = .ok () ∧
      whole.2.resources.texels ⟨1, 1⟩ ⟨0, 0, 0, 0, 1⟩ = some [255] ∧
      single.2.resources.texels ⟨1, 1⟩ ⟨0, 0, 0, 0, 1⟩ = some [0] ∧
      ¬ ∀ k, whole.2.resources.images.get? k = single.2.resources.images.get? k := by
  intro white whole single
  have hcovers : ScissorRect.Covers ⟨0, 0, 1, 1⟩ ⟨⟨1, 1⟩, .r8Unorm, 0, 0, 1, 1⟩ := by
    unfold ScissorRect.Covers
    decide
  have hwhole : whole.2.resources.texels ⟨1, 1⟩ ⟨0, 0, 0, 0, 1⟩ = some [255] := by decide +kernel
  have hsingle : single.2.resources.texels ⟨1, 1⟩ ⟨0, 0, 0, 0, 1⟩ = some [0] := by decide +kernel
  have hanswer : whole.1 = .ok () := by decide +kernel
  have hanswer' : single.1 = .ok () := by decide +kernel
  refine ⟨slab_reachable, rfl, rfl, rfl, hcovers, hanswer, hanswer', hwhole, hsingle,
    fun hsame => ?_⟩
  have htexels : whole.2.resources.texels ⟨1, 1⟩ ⟨0, 0, 0, 0, 1⟩
      = single.2.resources.texels ⟨1, 1⟩ ⟨0, 0, 0, 0, 1⟩ := by
    unfold Resources.texels
    rw [hsame]
  rw [hwhole, hsingle] at htexels
  cases htexels

end RenderContext

end PixelPipeline
