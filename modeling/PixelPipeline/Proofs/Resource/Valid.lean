import PixelPipeline.Proofs.Arena.Laws
import PixelPipeline.Proofs.Image.Creation
import PixelPipeline.Proofs.Image.Texels
import PixelPipeline.Resource.Store

/-!
# Resources refer to what exists

Whatever is created, destroyed or written, every live view and surface refers
to a live image and lies inside it (`Change.valid`), and a surface handle never
comes to mean another surface (`Change.ages`).

Writes leave more in place: `Redrawn` relates resources that differ in nothing
but the bytes of images.
-/

namespace PixelPipeline

variable {d : ImageDesc} {r r' : Resources}

/-- The view shows levels and layers of an image with this description. -/
structure View.Of (v : View) (d : ImageDesc) : Prop where
  levels : 0 < v.numLevels ∧ v.minLevel + v.numLevels ≤ d.levels
  layers : 0 < v.numLayers ∧ v.minLayer + v.numLayers ≤ d.layers
  stride : v.format.stride = d.format.stride
  compressed : v.format.isCompressed = d.format.isCompressed
  supported : d.imageType.supports v.format = true

/-- The surface is a level of a layer of an image with this description. -/
structure Surface.Of (s : Surface) (d : ImageDesc) : Prop where
  format : s.format = d.format
  level : s.level < d.levels
  layer : s.layer < d.layers
  width : s.width = (d.levelExtent s.level).x
  height : s.height = (d.levelExtent s.level).y

/-! ## Creation -/

/-- A range that fits does so as a range of numbers. -/
theorem le_of_rangeFits {base count total : Nat} (hfits : rangeFits base count total = true) :
    0 < count ∧ base + count ≤ total := by
  unfold rangeFits wordSum? at hfits
  obtain ⟨hcount, hlast⟩ := Bool.and_eq_true_iff.mp hfits
  refine ⟨by simpa using hcount, ?_⟩
  by_cases hword : base + count < 2 ^ 32
  · rw [if_pos hword] at hlast
    simpa using hlast
  · rw [if_neg hword] at hlast
    cases hlast

/-- The end of this range would wrap around to zero. -/
example : rangeFits 1 (2 ^ 32 - 1) 4 = false := by decide

/-- A view that is created is of the image, and of its description. -/
theorem View.create_eq_ok {h : Handle .image} {i : Image} {vd : ViewDesc} {v : View}
    (hcreate : View.create h i vd = .ok v) : v.image = h ∧ v.Of i.desc := by
  unfold create at hcreate
  simp only at hcreate
  obtain ⟨hlevels, hrest⟩ := guard_eq_ok.mp hcreate
  obtain ⟨hlayers, hrest⟩ := guard_eq_ok.mp hrest
  obtain ⟨hformat, hrest⟩ := guard_eq_ok.mp hrest
  obtain ⟨hsupported, hrest⟩ := guard_eq_ok.mp hrest
  obtain rfl := Except.ok.inj hrest
  refine ⟨rfl, ?_, ?_, ?_, ?_, ?_⟩
  · exact le_of_rangeFits (by simpa using hlevels)
  · exact le_of_rangeFits (by simpa using hlayers)
  · simpa using (not_or.mp hformat).1
  · simpa using (not_or.mp hformat).2
  · simpa using hsupported

/-- A surface that is created is of the image, and of its description. -/
theorem Surface.create_eq_ok {h : Handle .image} {i : Image} {level layer : Nat} {s : Surface}
    (hcreate : Surface.create h i level layer = .ok s) : s.image = h ∧ s.Of i.desc := by
  unfold create at hcreate
  by_cases houtside : i.desc.levels ≤ level ∨ i.desc.layers ≤ layer
  · rw [if_pos houtside] at hcreate
    cases hcreate
  · rw [if_neg houtside] at hcreate
    obtain rfl := Except.ok.inj hcreate
    have hlevel : level < i.desc.levels := by omega
    have hextent : i.extent level = i.desc.levelExtent level := if_pos hlevel
    exact ⟨rfl, rfl, hlevel, by simp only; omega, congrArg Extent.x hextent,
      congrArg Extent.y hextent⟩

namespace Resources

/-! ## Validity -/

/-- Whatever is live refers to something live and lies inside it. -/
structure Valid (r : Resources) : Prop where
  images : r.images.Sound
  views : r.views.Sound
  samplers : r.samplers.Sound
  surfaces : r.surfaces.Sound
  stored : ∀ h i, r.images.get? h = some i → i.Stored
  viewed : ∀ h v, r.views.get? h = some v → ∃ i, r.images.get? v.image = some i ∧ v.Of i.desc
  drawn : ∀ h s, r.surfaces.get? h = some s →
    ∃ i, r.images.get? s.image = some i ∧ s.Of i.desc

/-- No resources are valid resources. -/
theorem valid_empty : empty.Valid where
  images := Arena.sound_empty
  views := Arena.sound_empty
  samplers := Arena.sound_empty
  surfaces := Arena.sound_empty
  stored h i hget := by simp [empty, Arena.get?_empty] at hget
  viewed h v hget := by simp [empty, Arena.get?_empty] at hget
  drawn h s hget := by simp [empty, Arena.get?_empty] at hget

/-- A handle resolves or is refused. -/
theorem resolve_eq_ok {kind : ResourceKind} {α : Type} {arena : Arena kind α} {h : Handle kind}
    {value : α} : resolve arena h = .ok value ↔ arena.get? h = some value := by
  unfold resolve
  cases arena.get? h with
  | none => simp
  | some other => simp

/-- The surface under a handle. -/
theorem surface_eq_ok {h : Handle .surface} {s : Surface} :
    r.surface h = .ok s ↔ r.surfaces.get? h = some s := resolve_eq_ok

/-- The image under a handle. -/
theorem image_eq_ok {h : Handle .image} {i : Image} :
    r.image h = .ok i ↔ r.images.get? h = some i := resolve_eq_ok

/-! ## Writes -/

/-- The resources differ in nothing but the bytes of images. -/
structure Redrawn (r r' : Resources) : Prop where
  views : r'.views = r.views
  samplers : r'.samplers = r.samplers
  surfaces : r'.surfaces = r.surfaces
  sound : r.images.Sound → r'.images.Sound
  frame : ∀ h, (r'.images.get? h).map Image.frame = (r.images.get? h).map Image.frame

theorem Redrawn.refl (r : Resources) : r.Redrawn r := ⟨rfl, rfl, rfl, id, fun _ => rfl⟩

theorem Redrawn.trans {r'' : Resources} (hfirst : r.Redrawn r') (hrest : r'.Redrawn r'') :
    r.Redrawn r'' where
  views := hrest.views.trans hfirst.views
  samplers := hrest.samplers.trans hfirst.samplers
  surfaces := hrest.surfaces.trans hfirst.surfaces
  sound hsound := hrest.sound (hfirst.sound hsound)
  frame h := (hrest.frame h).trans (hfirst.frame h)

/-- Changing an image within its frame. -/
theorem redrawn_modifyImage (r : Resources) (h : Handle .image) {f : Image → Image}
    (hframe : ∀ i, r.images.get? h = some i → (f i).frame = i.frame) :
    r.Redrawn (r.modifyImage h f) where
  views := rfl
  samplers := rfl
  surfaces := rfl
  sound hsound := hsound.modify h f
  frame k := by
    change ((r.images.modify h f).get? k).map Image.frame = _
    rw [Arena.get?_modify]
    by_cases hk : k = h
    · rw [if_pos hk, hk]
      cases hget : r.images.get? h with
      | none => rfl
      | some i => exact congrArg some (hframe i hget)
    · rw [if_neg hk]

/-- Setting a texel of a surface redraws its image. -/
theorem redrawn_setSurfaceTexel (r : Resources) (s : Surface) (x y : Nat) (bytes : Bytes) :
    r.Redrawn (r.setSurfaceTexel s x y bytes) := by
  unfold setSurfaceTexel
  cases s.texelIndex? x y with
  | none => exact .refl r
  | some t => exact redrawn_modifyImage r s.image fun i _ => i.frame_setTexel t bytes

/-- An upload redraws its image. -/
theorem redrawn_upload {h : Handle .image} {level layer : Nat} {bytes : Bytes}
    (hupload : r.upload h level layer bytes = .ok r') : r.Redrawn r' := by
  unfold upload at hupload
  obtain ⟨i, himage, hrest⟩ := bind_eq_ok.mp hupload
  obtain ⟨uploaded, hbytes, hrest⟩ := bind_eq_ok.mp hrest
  obtain rfl := Except.ok.inj hrest
  apply redrawn_modifyImage
  intro i' hget
  rw [image_eq_ok.mp himage] at hget
  obtain rfl := Option.some.inj hget
  exact Image.frame_upload hbytes

/-- An image that is redrawn keeps its description. -/
theorem Redrawn.image (hredrawn : r.Redrawn r') {h : Handle .image} {i : Image}
    (hget : r.images.get? h = some i) :
    ∃ i', r'.images.get? h = some i' ∧ i'.frame = i.frame := by
  have hframe := hredrawn.frame h
  rw [hget] at hframe
  obtain ⟨i', hget', heq⟩ := Option.map_eq_some_iff.mp hframe
  exact ⟨i', hget', heq⟩

/-- A redrawn image was there before, in the same frame. -/
theorem Redrawn.symm_image (hredrawn : r.Redrawn r') {h : Handle .image} {i' : Image}
    (hget : r'.images.get? h = some i') :
    ∃ i, r.images.get? h = some i ∧ i'.frame = i.frame := by
  have hframe := hredrawn.frame h
  rw [hget] at hframe
  obtain ⟨i, hget', heq⟩ := Option.map_eq_some_iff.mp hframe.symm
  exact ⟨i, hget', heq.symm⟩

/-- Redrawing keeps the resources valid. -/
theorem Redrawn.valid (hredrawn : r.Redrawn r') (hvalid : r.Valid) : r'.Valid where
  images := hredrawn.sound hvalid.images
  views := hredrawn.views ▸ hvalid.views
  samplers := hredrawn.samplers ▸ hvalid.samplers
  surfaces := hredrawn.surfaces ▸ hvalid.surfaces
  stored h i' hget := by
    obtain ⟨i, hi, hframe⟩ := hredrawn.symm_image hget
    exact (hvalid.stored h i hi).of_frame hframe
  viewed h v hget := by
    rw [hredrawn.views] at hget
    obtain ⟨i, hi, hof⟩ := hvalid.viewed h v hget
    obtain ⟨i', hi', hframe⟩ := hredrawn.image hi
    have hdesc : i'.desc = i.desc := congrArg Prod.fst hframe
    exact ⟨i', hi', hdesc ▸ hof⟩
  drawn h s hget := by
    rw [hredrawn.surfaces] at hget
    obtain ⟨i, hi, hof⟩ := hvalid.drawn h s hget
    obtain ⟨i', hi', hframe⟩ := hredrawn.image hi
    have hdesc : i'.desc = i.desc := congrArg Prod.fst hframe
    exact ⟨i', hi', hdesc ▸ hof⟩

/-! ## Operations -/

/-- One operation of a user on resources.  A texel is written in place with as
many bytes as it has; an allocator may have any room. -/
inductive Change (r : Resources) : Resources → Prop
  | createImage (room : Nat) (d : ImageDesc) {r' : Resources} {h : Handle .image} {log : Log}
      (hcreate : r.createImage room d = .ok (r', h, log)) : Change r r'
  | destroyImage {h : Handle .image} {r' : Resources} {i : Image} {log : Log}
      (hdestroy : r.destroyImage h = some (r', i, log)) : Change r r'
  | createView {h : Handle .image} {d : ViewDesc} {r' : Resources} {v : Handle .view}
      (hcreate : r.createView h d = .ok (r', v)) : Change r r'
  | createSampler (s : Sampler) : Change r (r.createSampler s).1
  | createSurface {h : Handle .image} {level layer : Nat} {r' : Resources} {s : Handle .surface}
      (hcreate : r.createSurface h level layer = .ok (r', s)) : Change r r'
  | destroyView (h : Handle .view) : Change r (r.destroyView h)
  | destroySampler (h : Handle .sampler) : Change r (r.destroySampler h)
  | destroySurface (h : Handle .surface) : Change r (r.destroySurface h)
  | upload {h : Handle .image} {level layer : Nat} {bytes : Bytes} {r' : Resources}
      (hupload : r.upload h level layer bytes = .ok r') : Change r r'
  | setTexel {h : Handle .image} {i : Image} (himage : r.images.get? h = some i) (t : TexelIndex)
      {bytes : Bytes} (hlength : bytes.length = i.desc.format.stride) :
      Change r (r.modifyImage h fun i => i.setTexel t bytes)

/-- A new image is the zeroed one of its description, under a handle of its own. -/
theorem createImage_eq_ok {room : Nat} {h : Handle .image} {log : Log}
    (hcreate : r.createImage room d = .ok (r', h, log)) :
    ∃ i, i.desc = d ∧ i.Stored ∧ r' = { r with images := (r.images.insert i).1 } ∧
      h = r.images.next := by
  unfold createImage at hcreate
  obtain ⟨i, himage, hrest⟩ := bind_eq_ok.mp hcreate
  obtain ⟨hdesc, hstored⟩ := Image.create_eq_ok himage
  have hpair : (({ r with images := (r.images.insert i).1 } : Resources),
      (r.images.insert i).2, _) = (r', h, log) := Except.ok.inj hrest
  obtain ⟨hr, hpair⟩ := Prod.mk.inj hpair
  exact ⟨i, hdesc, hstored, hr.symm, (Prod.mk.inj hpair).1 ▸ r.images.insert_handle i⟩

/-- A destroyed image takes its views and surfaces with it. -/
theorem destroyImage_eq_some {h : Handle .image} {i : Image} {log : Log}
    (hdestroy : r.destroyImage h = some (r', i, log)) :
    r.images.get? h = some i ∧ r' = { r with
      images := r.images.remove h
      views := r.views.filter fun v => v.image != h
      surfaces := r.surfaces.filter fun s => s.image != h } := by
  unfold destroyImage at hdestroy
  obtain ⟨i', hget, hrest⟩ := Option.bind_eq_some_iff.mp hdestroy
  obtain ⟨hr, hpair⟩ := Prod.mk.inj (Option.some.inj hrest)
  exact ⟨(Prod.mk.inj hpair).1 ▸ hget, hr.symm⟩

/-- A view that is created is of a live image, and is the only thing that is new. -/
theorem createView_eq_ok {h : Handle .image} {vd : ViewDesc} {id : Handle .view}
    (hcreate : r.createView h vd = .ok (r', id)) :
    ∃ i v, r.images.get? h = some i ∧ v.image = h ∧ v.Of i.desc ∧
      r' = { r with views := (r.views.insert v).1 } ∧ id = r.views.next := by
  unfold createView at hcreate
  obtain ⟨i, himage, hrest⟩ := bind_eq_ok.mp hcreate
  obtain ⟨v, hview, hrest⟩ := bind_eq_ok.mp hrest
  obtain ⟨hvimage, hof⟩ := View.create_eq_ok hview
  have hpair : (({ r with views := (r.views.insert v).1 } : Resources), (r.views.insert v).2)
      = (r', id) := Except.ok.inj hrest
  obtain ⟨hr, hid⟩ := Prod.mk.inj hpair
  exact ⟨i, v, image_eq_ok.mp himage, hvimage, hof, hr.symm, hid ▸ r.views.insert_handle v⟩

/-- A surface that is created is of a live image, and is the only thing that is new. -/
theorem createSurface_eq_ok {h : Handle .image} {level layer : Nat} {id : Handle .surface}
    (hcreate : r.createSurface h level layer = .ok (r', id)) :
    ∃ i s, r.images.get? h = some i ∧ s.image = h ∧ s.Of i.desc ∧
      r' = { r with surfaces := (r.surfaces.insert s).1 } ∧ id = r.surfaces.next := by
  unfold createSurface at hcreate
  obtain ⟨i, himage, hrest⟩ := bind_eq_ok.mp hcreate
  obtain ⟨s, hsurface, hrest⟩ := bind_eq_ok.mp hrest
  obtain ⟨hsimage, hof⟩ := Surface.create_eq_ok hsurface
  have hpair : (({ r with surfaces := (r.surfaces.insert s).1 } : Resources),
      (r.surfaces.insert s).2) = (r', id) := Except.ok.inj hrest
  obtain ⟨hr, hid⟩ := Prod.mk.inj hpair
  exact ⟨i, s, image_eq_ok.mp himage, hsimage, hof, hr.symm, hid ▸ r.surfaces.insert_handle s⟩

/-- A stored image can be added to valid resources. -/
theorem Valid.insertImage (hvalid : r.Valid) {i : Image} (hstored : i.Stored) :
    ({ r with images := (r.images.insert i).1 } : Resources).Valid := by
  refine ⟨hvalid.images.insert i, hvalid.views, hvalid.samplers, hvalid.surfaces, ?_, ?_, ?_⟩
  · intro k j hget
    simp only [Arena.get?_insert hvalid.images] at hget
    by_cases hk : k = r.images.next
    · rw [if_pos hk] at hget
      exact Option.some.inj hget ▸ hstored
    · rw [if_neg hk] at hget
      exact hvalid.stored k j hget
  · intro k v hget
    obtain ⟨j, hj, hof⟩ := hvalid.viewed k v hget
    exact ⟨j, hvalid.images.get?_insert_of_live hj i, hof⟩
  · intro k s hget
    obtain ⟨j, hj, hof⟩ := hvalid.drawn k s hget
    exact ⟨j, hvalid.images.get?_insert_of_live hj i, hof⟩

/-- Views and surfaces of a destroyed image go with it. -/
theorem Valid.removeImage (hvalid : r.Valid) (h : Handle .image) :
    ({ r with
      images := r.images.remove h
      views := r.views.filter fun v => v.image != h
      surfaces := r.surfaces.filter fun s => s.image != h } : Resources).Valid := by
  refine ⟨hvalid.images.remove h, hvalid.views.filter _, hvalid.samplers,
    hvalid.surfaces.filter _, ?_, ?_, ?_⟩
  · intro k j hget
    exact hvalid.stored k j (r.images.get?_of_remove hget)
  · intro k v hget
    rw [Arena.get?_filter hvalid.views] at hget
    obtain ⟨hlive, hkeep⟩ := Option.filter_eq_some_iff.mp hget
    obtain ⟨j, hj, hof⟩ := hvalid.viewed k v hlive
    refine ⟨j, ?_, hof⟩
    rw [Arena.get?_remove, if_neg (by simpa using hkeep)]
    exact hj
  · intro k s hget
    rw [Arena.get?_filter hvalid.surfaces] at hget
    obtain ⟨hlive, hkeep⟩ := Option.filter_eq_some_iff.mp hget
    obtain ⟨j, hj, hof⟩ := hvalid.drawn k s hlive
    refine ⟨j, ?_, hof⟩
    rw [Arena.get?_remove, if_neg (by simpa using hkeep)]
    exact hj

/-- A view of a live image can be added to valid resources. -/
theorem Valid.insertView (hvalid : r.Valid) {v : View} {i : Image}
    (himage : r.images.get? v.image = some i) (hof : v.Of i.desc) :
    ({ r with views := (r.views.insert v).1 } : Resources).Valid := by
  refine ⟨hvalid.images, hvalid.views.insert v, hvalid.samplers, hvalid.surfaces, hvalid.stored,
    ?_, hvalid.drawn⟩
  intro k w hget
  simp only [Arena.get?_insert hvalid.views] at hget
  by_cases hk : k = r.views.next
  · rw [if_pos hk] at hget
    obtain rfl := Option.some.inj hget
    exact ⟨i, himage, hof⟩
  · rw [if_neg hk] at hget
    exact hvalid.viewed k w hget

/-- A surface of a live image can be added to valid resources. -/
theorem Valid.insertSurface (hvalid : r.Valid) {s : Surface} {i : Image}
    (himage : r.images.get? s.image = some i) (hof : s.Of i.desc) :
    ({ r with surfaces := (r.surfaces.insert s).1 } : Resources).Valid := by
  refine ⟨hvalid.images, hvalid.views, hvalid.samplers, hvalid.surfaces.insert s, hvalid.stored,
    hvalid.viewed, ?_⟩
  intro k w hget
  simp only [Arena.get?_insert hvalid.surfaces] at hget
  by_cases hk : k = r.surfaces.next
  · rw [if_pos hk] at hget
    obtain rfl := Option.some.inj hget
    exact ⟨i, himage, hof⟩
  · rw [if_neg hk] at hget
    exact hvalid.drawn k w hget

/-- Every operation keeps resources valid. -/
theorem Change.valid (hchange : r.Change r') (hvalid : r.Valid) : r'.Valid := by
  cases hchange with
  | createImage room d hcreate =>
    obtain ⟨i, -, hstored, rfl, -⟩ := createImage_eq_ok hcreate
    exact hvalid.insertImage hstored
  | destroyImage hdestroy =>
    obtain ⟨-, rfl⟩ := destroyImage_eq_some hdestroy
    exact hvalid.removeImage _
  | createView hcreate =>
    obtain ⟨i, v, himage, rfl, hof, rfl, -⟩ := createView_eq_ok hcreate
    exact hvalid.insertView himage hof
  | createSampler s => exact { hvalid with samplers := hvalid.samplers.insert s }
  | createSurface hcreate =>
    obtain ⟨i, s, himage, rfl, hof, rfl, -⟩ := createSurface_eq_ok hcreate
    exact hvalid.insertSurface himage hof
  | destroyView h =>
    refine { hvalid with views := hvalid.views.remove h, viewed := ?_ }
    intro k v hget
    exact hvalid.viewed k v (r.views.get?_of_remove hget)
  | destroySampler h => exact { hvalid with samplers := hvalid.samplers.remove h }
  | destroySurface h =>
    refine { hvalid with surfaces := hvalid.surfaces.remove h, drawn := ?_ }
    intro k s hget
    exact hvalid.drawn k s (r.surfaces.get?_of_remove hget)
  | upload hupload => exact (redrawn_upload hupload).valid hvalid
  | setTexel himage t hlength =>
    exact (redrawn_modifyImage r _ fun i _ => i.frame_setTexel t _).valid hvalid

/-- No operation makes a surface handle mean another surface. -/
theorem Change.ages (hchange : r.Change r') (hvalid : r.Valid) :
    r.surfaces.Ages r'.surfaces := by
  cases hchange with
  | createImage room d hcreate =>
    obtain ⟨i, -, -, rfl, -⟩ := createImage_eq_ok hcreate
    exact .refl _
  | destroyImage hdestroy =>
    obtain ⟨-, rfl⟩ := destroyImage_eq_some hdestroy
    exact hvalid.surfaces.ages_filter _
  | createView hcreate =>
    obtain ⟨i, v, -, -, -, rfl, -⟩ := createView_eq_ok hcreate
    exact .refl _
  | createSampler s => exact .refl _
  | createSurface hcreate =>
    obtain ⟨i, s, -, -, -, rfl, -⟩ := createSurface_eq_ok hcreate
    exact hvalid.surfaces.ages_insert s
  | destroyView h => exact .refl _
  | destroySampler h => exact .refl _
  | destroySurface h => exact r.surfaces.ages_remove h
  | upload hupload => exact (redrawn_upload hupload).surfaces ▸ .refl _
  | setTexel himage t hlength => exact .refl _

end Resources

end PixelPipeline
