import PixelPipeline.Proofs.Binary32.Integral
import PixelPipeline.Proofs.Texture.Sampling

/-!
# Which levels and layers are sampled

A level of detail and a layer coordinate are any floats.  Both go through
`chooseUpTo`, which clamps to the greatest choice as a float and truncates, so
what is chosen is at most that float truncated, `lastChoice`.  Whole numbers
below `2 ^ 24` are floats, and for them `lastChoice` is the number itself
(`lastChoice_eq`); a larger number may be rounded up.

No image has so many levels, and every level that is sampled is one of the view.
An array may have more layers, and the layer that is sampled is one of the view,
for every coordinate, when `lastChoice` does not exceed the last layer, and only
then (`selection_inside`).
-/

namespace PixelPipeline

/-! ## Choosing by a float -/

/-- The greatest number that is chosen: the last one as a float, truncated. -/
def lastChoice (last : Nat) : Nat := (Binary32.ofNat last).toUInt32.toNat

section Choice

open Binary32

variable {last : Nat} {v : Binary32}

/-- Truncation keeps the order. -/
theorem toNat_toUInt32_mono {x y : Binary32} (hx : x.isNaN = false) (hy : y.isNaN = false)
    (hle : x.value ≤ y.value) : x.toUInt32.toNat ≤ y.toUInt32.toNat := by
  have hquotient : x.value / unitCount ≤ y.value / unitCount :=
    Int.ediv_le_ediv (by decide) hle
  rw [toNat_toUInt32 hx, toNat_toUInt32 hy]
  omega

/-- What is chosen is at most the last number as a float. -/
theorem chooseUpTo_le (last : Nat) (v : Binary32) : chooseUpTo last v ≤ lastChoice last := by
  obtain ⟨hlast, -⟩ := ofNat_nonneg last
  unfold chooseUpTo lastChoice
  by_cases hnan : v.isNaN = true
  · have hnone : v.toUInt32.toNat = 0 := by
      rw [toUInt32_eq, unpacked_of_isNaN hnan]
      rfl
    rw [clamp_of_isNaN hnan, hnone]
    exact Nat.zero_le _
  · obtain ⟨hnumber, hvalue⟩ := value_clamp isNaN_zero hlast (Bool.eq_false_iff.mpr hnan)
    exact toNat_toUInt32_mono hnumber hlast (by omega)

/-- From the last number on, the last number is chosen. -/
theorem chooseUpTo_of_le (hnumber : v.isNaN = false) (hle : (ofNat last).value ≤ v.value) :
    chooseUpTo last v = lastChoice last := by
  obtain ⟨hlast, hnonneg⟩ := ofNat_nonneg last
  have hzero := value_zero
  obtain ⟨hclamped, hvalue⟩ := value_clamp isNaN_zero hlast hnumber
  refine Nat.le_antisymm (chooseUpTo_le last v) ?_
  exact toNat_toUInt32_mono hlast hclamped (by omega)

/-- An infinite coordinate chooses the last layer as a float has it. -/
theorem chooseUpTo_infinity (last : Nat) :
    chooseUpTo last (roundHalfAway ⟨0x7f800000⟩) = lastChoice last := by
  have hinfinite : roundHalfAway ⟨0x7f800000⟩ = ⟨0x7f800000⟩ := rfl
  have hlast : (ofNat last).value ≤ overflowCount := value_le _
  rw [hinfinite]
  exact chooseUpTo_of_le rfl hlast

/-- Numbers below `2 ^ 24` are chosen as they are. -/
theorem lastChoice_eq (hlt : last < 2 ^ 24) : lastChoice last = last := by
  unfold lastChoice
  have hunit : 0 < unitCount := by decide
  have hquotient : ((last * unitCount : Nat) : Int) / unitCount = last := by
    rw [← Int.natCast_ediv, Nat.mul_div_cancel _ hunit]
  rw [toNat_toUInt32 (ofNat_nonneg last).1, value_ofNat hlt, hquotient]
  omega

/-- This number lies halfway between two floats and is rounded up. -/
example : lastChoice 16777219 = 16777220 := by decide +kernel

end Choice

/-! ## Views -/

namespace ImageDesc

variable {d : ImageDesc}

/-- The extents and the number of layers are 32-bit words. -/
structure Words (d : ImageDesc) : Prop where
  width : d.width < 2 ^ 32
  height : d.height < 2 ^ 32
  depth : d.depth < 2 ^ 32
  layers : d.layers < 2 ^ 32

/-- Halving words leaves no more than 32 levels. -/
theorem Words.levels_le (hwords : d.Words) (hflaw : d.flaw? = none) : d.levels ≤ 32 := by
  have hextent : max (max d.width d.height) d.depth < 2 ^ 32 :=
    Nat.max_lt.mpr ⟨Nat.max_lt.mpr ⟨hwords.width, hwords.height⟩, hwords.depth⟩
  have hlevels : d.levels ≤ d.maxLevels := by
    unfold flaw? at hflaw
    split at hflaw
    · cases hflaw
    split at hflaw
    · cases hflaw
    · omega
  have hlog : (max (max d.width d.height) d.depth).log2 < 32 := by
    by_cases hzero : max (max d.width d.height) d.depth = 0
    · rw [hzero]
      decide
    · exact (Nat.log2_lt hzero).mpr hextent
  unfold maxLevels at hlevels
  omega

/-- From the second level on, words are small enough to be signed. -/
theorem Words.signedAt (hwords : d.Words) {level : Nat} (hlevel : 0 < level) :
    d.SignedAt level := by
  have hshrink : ∀ size, size < 2 ^ 32 → max (size >>> level) 1 < 2 ^ 31 := by
    intro size hsize
    have hle : size >>> level ≤ size / 2 := by
      rw [Nat.shiftRight_eq_div_pow]
      exact Nat.div_le_div_left (Nat.le_self_pow (Nat.ne_of_gt hlevel) 2) (by decide)
    omega
  refine ⟨hshrink _ hwords.width, hshrink _ hwords.height, ?_⟩
  unfold levelExtent
  simp only
  split
  · exact hshrink _ hwords.depth
  · omega

end ImageDesc

namespace View

variable {v : View} {d : ImageDesc}

/-- Every level of detail selects a level of the view. -/
theorem levelAt_inside (hof : v.Of d) (hfew : d.levels ≤ 32) (lod : Binary32) :
    v.minLevel ≤ v.levelAt lod ∧ v.levelAt lod < v.minLevel + v.numLevels := by
  obtain ⟨hpos, hle⟩ := hof.levels
  have hchosen := chooseUpTo_le (v.numLevels - 1) lod
  rw [lastChoice_eq (by omega)] at hchosen
  unfold levelAt
  omega

/-- A choice is added to the first layer, if that gives a layer. -/
theorem layerAt_eq_ok {coord : Option Binary32} {layer : Nat} :
    v.layerAt coord = .ok layer ↔ layer < 2 ^ 32 ∧ layer = v.minLayer + coord.elim 0 fun c =>
      chooseUpTo (v.numLayers - 1) (Binary32.roundHalfAway c) := by
  unfold layerAt wordSum?
  by_cases hword : (v.minLayer + coord.elim 0 fun c =>
      chooseUpTo (v.numLayers - 1) (Binary32.roundHalfAway c)) < 2 ^ 32
  · simp only [if_pos hword, Except.ok.injEq]
    exact ⟨fun heq => ⟨heq ▸ hword, heq.symm⟩, fun h => h.2.symm⟩
  · simp only [if_neg hword]
    exact iff_of_false nofun fun h => hword (h.2 ▸ h.1)

/-- The first layer is sampled without a coordinate. -/
theorem layerAt_none (hword : v.minLayer + v.numLayers < 2 ^ 32) :
    v.layerAt none = .ok v.minLayer :=
  layerAt_eq_ok.mpr ⟨by omega, rfl⟩

/-- The layer is one of the view. -/
def Selects (v : View) (coord : Option Binary32) : Prop :=
  ∃ layer, v.layerAt coord = .ok layer ∧ v.minLayer ≤ layer ∧ layer < v.minLayer + v.numLayers

/-- Every coordinate selects a layer of the view when the last layer, as a float, does not
exceed it, and only then: an infinite coordinate selects that float, or leaves the word. -/
theorem selects_iff (hpos : 0 < v.numLayers) (hword : v.minLayer + v.numLayers < 2 ^ 32) :
    (∀ c, v.Selects (some c)) ↔ lastChoice (v.numLayers - 1) ≤ v.numLayers - 1 := by
  constructor
  · intro hinside
    have hinfinite : chooseUpTo (v.numLayers - 1) (Binary32.roundHalfAway ⟨0x7f800000⟩)
        = lastChoice (v.numLayers - 1) := chooseUpTo_infinity _
    obtain ⟨layer, hlayer, -, hlt⟩ := hinside ⟨0x7f800000⟩
    obtain ⟨-, rfl⟩ := layerAt_eq_ok.mp hlayer
    rw [Option.elim_some, hinfinite] at hlt
    omega
  · intro hlast c
    have hchosen := chooseUpTo_le (v.numLayers - 1) (Binary32.roundHalfAway c)
    refine ⟨_, layerAt_eq_ok.mpr ⟨?_, rfl⟩, Nat.le_add_right _ _, ?_⟩
    · rw [Option.elim_some]
      omega
    · rw [Option.elim_some]
      omega

/-- Up to `2 ^ 24` layers, a coordinate from the last layer on selects that layer. -/
theorem layerAt_of_le (hpos : 0 < v.numLayers) (hword : v.minLayer + v.numLayers < 2 ^ 32)
    (hfew : v.numLayers ≤ 2 ^ 24) {c : Binary32}
    (hle : Binary32.le (Binary32.ofNat (v.numLayers - 1)) c = true) :
    v.layerAt (some c) = .ok (v.minLayer + (v.numLayers - 1)) := by
  have hlast : v.numLayers - 1 < 2 ^ 24 := by omega
  obtain ⟨hnumberLast, hnumber⟩ := Binary32.isNaN_of_le hle
  have hvalue := (Binary32.le_iff hnumberLast hnumber).mp hle
  have hchosen : chooseUpTo (v.numLayers - 1) (Binary32.roundHalfAway c) = v.numLayers - 1 := by
    rw [Binary32.value_ofNat hlast] at hvalue
    by_cases hone : v.numLayers - 1 = 0
    · have hle := chooseUpTo_le (v.numLayers - 1) (Binary32.roundHalfAway c)
      rw [lastChoice_eq hlast] at hle
      omega
    · obtain ⟨hrounded, hbeyond⟩ :=
        Binary32.le_roundHalfAway hnumber (Nat.pos_of_ne_zero hone) hvalue
      rw [← Binary32.value_ofNat hlast] at hbeyond
      rw [chooseUpTo_of_le hrounded hbeyond, lastChoice_eq hlast]
  refine layerAt_eq_ok.mpr ⟨by omega, ?_⟩
  rw [Option.elim_some, hchosen]

end View

/-! ## Sampling -/

namespace ImageType

variable {t : ImageType}

/-- Every coordinate of an array selects a layer by a float, and any float is one of a
coordinate. -/
theorem layerCoord?_of_isArray (harray : t.isArray = true) :
    (∀ coord, ∃ c, t.layerCoord? coord = some c) ∧ ∀ c, ∃ coord, t.layerCoord? coord = some c := by
  cases t with
  | d1Array => exact ⟨fun coord => ⟨_, rfl⟩, fun c => ⟨#v[c, c, c], rfl⟩⟩
  | d2Array => exact ⟨fun coord => ⟨_, rfl⟩, fun c => ⟨#v[c, c, c], rfl⟩⟩
  | d1 => cases harray
  | d2 => cases harray
  | d3 => cases harray

/-- Without an array there is no coordinate for layers. -/
theorem layerCoord?_eq_none (harray : ¬ t.isArray = true) (coord : TexCoord) :
    t.layerCoord? coord = none := by
  cases t with
  | d1Array => exact (harray rfl).elim
  | d2Array => exact (harray rfl).elim
  | d1 => rfl
  | d2 => rfl
  | d3 => rfl

end ImageType

/-- The levels of a choice. -/
def LevelChoice.levels : LevelChoice → List Nat
  | one level => [level]
  | two near far _ => [near, far]

namespace BoundTexture

variable {d : ImageDesc} {created image : Image} {h : Handle .image} {vd : ViewDesc} {view : View}
  {room : Nat}

/-- The levels of a level of detail are ones that some float selects. -/
theorem levelChoice_levels (b : BoundTexture) (lod : Binary32) {level : Nat}
    (hmem : level ∈ (b.levelChoice lod).levels) : ∃ v, level = b.view.levelAt v := by
  unfold levelChoice at hmem
  cases hfilter : b.sampler.mipmapFilter with
  | nearest =>
    rw [hfilter] at hmem
    exact ⟨_, List.mem_singleton.mp hmem⟩
  | linear =>
    rw [hfilter] at hmem
    rcases List.mem_cons.mp hmem with hnear | hfar
    · exact ⟨_, hnear⟩
    · exact ⟨_, List.mem_singleton.mp hfar⟩

/-- The coordinate selects a layer of the view. -/
def LayerInside (b : BoundTexture) (coord : TexCoord) : Prop :=
  ∃ layer, b.selectedLayer coord = .ok layer ∧
    b.view.minLayer ≤ layer ∧ layer < b.view.minLayer + b.view.numLayers

/-- The layer is one of the view, for all coordinates, unless the image is an array whose
last layer in the view, as a float, is a greater number. -/
theorem layerInside_iff (b : BoundTexture) (hof : b.view.Of b.image.desc)
    (hwords : b.image.desc.Words) :
    (∀ coord, b.LayerInside coord) ↔
      (b.image.desc.imageType.isArray = true →
        lastChoice (b.view.numLayers - 1) ≤ b.view.numLayers - 1) := by
  obtain ⟨hpos, hlayers⟩ := hof.layers
  have hword := Nat.lt_of_le_of_lt hlayers hwords.layers
  unfold LayerInside selectedLayer
  by_cases harray : b.image.desc.imageType.isArray = true
  · obtain ⟨hsome, hevery⟩ := ImageType.layerCoord?_of_isArray harray
    refine ⟨fun hall _ => (View.selects_iff hpos hword).mp fun c => ?_,
      fun hlast coord => ?_⟩
    · obtain ⟨coord, hcoord⟩ := hevery c
      exact hcoord ▸ hall coord
    · obtain ⟨c, hcoord⟩ := hsome coord
      rw [hcoord]
      exact (View.selects_iff hpos hword).mpr (hlast harray) c
  · refine ⟨fun _ h => (harray h).elim, fun _ coord => ?_⟩
    rw [ImageType.layerCoord?_eq_none harray]
    exact ⟨b.view.minLayer, View.layerAt_none hword, Nat.le_refl _, Nat.lt_add_of_pos_right hpos⟩

/-- Up to `2 ^ 24` layers every coordinate selects one. -/
theorem layerInside_of_few (b : BoundTexture) (hof : b.view.Of b.image.desc)
    (hwords : b.image.desc.Words) (hfew : b.view.numLayers ≤ 2 ^ 24) (coord : TexCoord) :
    b.LayerInside coord := by
  have hpos := hof.layers.1
  have hexact : lastChoice (b.view.numLayers - 1) = b.view.numLayers - 1 :=
    lastChoice_eq (by omega)
  exact (b.layerInside_iff hof hwords).mpr (fun _ => Nat.le_of_eq hexact) coord

/-- The levels that are sampled are ones of the view. -/
theorem levels_inside (b : BoundTexture) (hof : b.view.Of b.image.desc)
    (hfew : b.image.desc.levels ≤ 32) (lod : Binary32) :
    ∀ level ∈ b.view.minLevel :: (b.levelChoice lod).levels,
      b.view.minLevel ≤ level ∧ level < b.view.minLevel + b.view.numLevels := by
  intro level hmem
  rcases List.mem_cons.mp hmem with rfl | hchosen
  · have hlevels := hof.levels
    omega
  · obtain ⟨v, rfl⟩ := b.levelChoice_levels _ hchosen
    exact View.levelAt_inside hof hfew v

/-- **Sampling stays inside the view.**  At any coordinate and level of detail the levels
are ones of the view.  So is the layer, for all coordinates, unless the image is an
array whose last layer in the view, as a float, is a greater number.  Up to `2 ^ 24`
layers this cannot be, and a coordinate from the last layer on selects that layer. -/
theorem selection_inside (hcreate : Image.create room d = .ok created) (hwords : d.Words)
    (hview : View.create h created vd = .ok view) (hframe : image.frame = created.frame)
    (sampler : Sampler) :
    let b : BoundTexture := ⟨image, view, sampler⟩
    let last := view.numLayers - 1
    (∀ lod, ∀ level ∈ view.minLevel :: (b.levelChoice (b.effectiveLod lod)).levels,
        view.minLevel ≤ level ∧ level < view.minLevel + view.numLevels) ∧
      ((∀ coord, b.LayerInside coord) ↔
        (d.imageType.isArray = true → lastChoice last ≤ last)) ∧
      (view.numLayers ≤ 2 ^ 24 → ∀ coord, b.LayerInside coord ∧
        ∀ c, d.imageType.layerCoord? coord = some c → Binary32.le (Binary32.ofNat last) c = true →
          b.selectedLayer coord = .ok (view.minLayer + last)) := by
  intro b last
  obtain ⟨rfl, hstored⟩ := Image.create_eq_ok hcreate
  obtain ⟨-, hof⟩ := View.create_eq_ok hview
  have hdesc : image.desc = created.desc := congrArg Prod.fst hframe
  rw [← hdesc] at hwords hof ⊢
  have hflaw : image.desc.flaw? = none := hdesc ▸ hstored.flaw
  have hinside := b.layerInside_iff hof hwords
  refine ⟨fun lod => b.levels_inside hof (hwords.levels_le hflaw) _, hinside, ?_⟩
  intro hfewLayers coord
  have hpos := hof.layers.1
  have hword := Nat.lt_of_le_of_lt hof.layers.2 hwords.layers
  have hexact : lastChoice last ≤ last := Nat.le_of_eq (lastChoice_eq (by omega))
  refine ⟨hinside.mpr (fun _ => hexact) coord, fun c hcoord hle => ?_⟩
  have hselected : b.selectedLayer coord = view.layerAt (some c) := congrArg view.layerAt hcoord
  rw [hselected]
  exact View.layerAt_of_le hpos hword hfewLayers hle

/-- An array whose last layer, 16777219, is no float. -/
def manyLayers : ImageDesc := (ImageDesc.d1 .r8Unorm 1).withLayers 16777220

/-- An infinite coordinate selects a layer behind the last one, where there is nothing to
sample. -/
theorem sample_manyLayers :
    let image : Image := ⟨manyLayers, Array.replicate manyLayers.byteSize 0⟩
    let view : View := ⟨Handle.null, .r8Unorm, 0, 1, 0, 16777220, Swizzle.identity⟩
    let b : BoundTexture := ⟨image, view, Sampler.nearest⟩
    let coord : TexCoord := #v[Binary32.zero, ⟨0x7f800000⟩, Binary32.zero]
    Image.create manyLayers.byteSize manyLayers = .ok image ∧
      View.create Handle.null image default = .ok view ∧
      b.selectedLayer coord = .ok (view.minLayer + view.numLayers) ∧
      b.sample coord = .error (.invalidImage (.sampledOutside ⟨0, 16777220, 0, 0, 0⟩)) := by
  exact ⟨rfl, rfl, by decide +kernel, rfl⟩

/-- Four layers and two levels. -/
def layeredLevels : ImageDesc := ((ImageDesc.d2 .r8Unorm 2 2).withLayers 4).withLevels 2

/-- The second level of the two layers in the middle. -/
def middleLayers : ViewDesc :=
  { (default : ViewDesc) with baseLevel := 1, baseLayer := 1, layerCount := some 2 }

/-- Infinite coordinates and levels of detail stay among these layers and at this level. -/
theorem selection_inside_middleLayers : ∃ image view,
    Image.create 20 layeredLevels = .ok image ∧
      View.create Handle.null image middleLayers = .ok view ∧
      let b : BoundTexture := ⟨image, view, Sampler.linear⟩
      (∀ level ∈ (b.levelChoice (b.effectiveLod ⟨0x7f800000⟩)).levels, 1 ≤ level ∧ level < 2) ∧
        b.selectedLayer #v[Binary32.zero, Binary32.zero, ⟨0x7f800000⟩] = .ok 2 := by
  let image : Image := ⟨layeredLevels, Array.replicate layeredLevels.byteSize 0⟩
  let view : View := ⟨Handle.null, .r8Unorm, 1, 1, 1, 2, Swizzle.identity⟩
  have hcreate : Image.create 20 layeredLevels = .ok image := rfl
  have hview : View.create Handle.null image middleLayers = .ok view := rfl
  have hwords : layeredLevels.Words := ⟨by decide, by decide, by decide, by decide⟩
  have hbeyond : Binary32.le (Binary32.ofNat 1) ⟨0x7f800000⟩ = true := by decide +kernel
  obtain ⟨hlevels, -, hlayers⟩ := selection_inside hcreate hwords hview rfl Sampler.linear
  refine ⟨image, view, hcreate, hview, fun level hmem => ?_, ?_⟩
  · exact hlevels ⟨0x7f800000⟩ level (List.mem_cons_of_mem _ hmem)
  · exact (hlayers (by decide) _).2 ⟨0x7f800000⟩ rfl hbeyond

end BoundTexture

end PixelPipeline
