import PixelPipeline.Proofs.Binary32.Cancel
import PixelPipeline.Proofs.Texture.Range
import PixelPipeline.Proofs.Texture.Uniform

/-!
# Levels of detail at and below zero

A level of detail that is biased and clamped to zero or less magnifies.  The nearest level
is the first one of the view then (`levelChoice_nearest`), and sampling at the level of
detail is sampling without one.

Between two levels the first one is blended with the next, or with itself in a view of one
level, by a weight of zero (`levelChoice_linear`).  From bounded texels nothing comes of the
next level (`lerp_zero`), and the clamp of the swizzle keeps numbers equal that are
(`Swizzle.apply_equals`).

The next level is sampled for nothing, but it is sampled.  Where the layer lies behind the
last one, fetching there fails also when the first level had nothing to fetch
(`sampleLod_beside`).  Apart from this the next level always has a colour
(`exists_sampleLevel_next`): from the second level on the extents fit signed words.

* `sampleLod_of_nonpos` — at and below zero there is one colour.
-/

namespace PixelPipeline

open Binary32 (Within)

/-! ## Numbers that are not positive -/

namespace Binary32

variable {x y lo hi : Binary32}

/-- **Rounding makes no number positive.** -/
theorem roundHalfAway_nonpos (hnumber : x.isNaN = false) (hle : x.value ≤ 0) :
    (roundHalfAway x).value ≤ 0 := by
  unfold roundHalfAway
  by_cases hcoarse : x.isCoarse = true
  · rw [if_pos hcoarse]
    exact hle
  obtain ⟨k, hfine⟩ := exists_fine (Bool.eq_false_iff.mpr hcoarse)
  have hlow := hfine.low
  have hvalue := x.value_eq
  rw [if_neg hcoarse]
  simp only
  unfold withSignOf
  by_cases hsign : x.signBit = true
  · rw [if_pos hsign, value_neg]
    split
    · rw [hfine.value_whole]
      omega
    · rw [hfine.value_next]
      omega
  · -- a zero, from which nothing is left
    rw [if_neg hsign] at hvalue
    have hzero : k * unitCount = 0 := by omega
    have hwhole : Equals x.abs (integralPart x.abs) :=
      ⟨x.isNaN_abs.trans hnumber, isNaN_of_integral hfine.whole, by
        rw [hfine.value_whole]
        omega⟩
    have hfinite : (integralPart x.abs).isFinite = true := by
      have hoverflow : 0 < overflowCount := by decide
      refine isFinite_iff.mpr ⟨hwhole.right, ?_⟩
      rw [hfine.value_whole, hzero]
      exact hoverflow
    have hrest := hwhole.sub hfinite
    have hhalf : lt (x.abs - integralPart x.abs) half = true := by
      refine (lt_iff hrest.left rfl).mpr ?_
      rw [hrest.value]
      decide
    rw [if_neg hsign, if_pos hhalf, hfine.value_whole]
    omega

/-- Equal numbers are equal after clamping to the unit interval. -/
theorem Equals.clampUnit (hequals : Equals x y) : Equals (clampUnit x) (clampUnit y) := by
  obtain ⟨hx, hvalue⟩ := value_clamp isNaN_zero isNaN_one hequals.left
  obtain ⟨hy, hvalue'⟩ := value_clamp isNaN_zero isNaN_one hequals.right
  refine ⟨hx, hy, ?_⟩
  unfold Binary32.clampUnit
  rw [hvalue, hvalue', hequals.value]

end Binary32

/-- What is not positive chooses the first. -/
theorem chooseUpTo_nonpos {last : Nat} {v : Binary32} (hle : v.value ≤ 0) :
    chooseUpTo last v = 0 := by
  obtain ⟨hlast, hnonneg⟩ := Binary32.ofNat_nonneg last
  unfold chooseUpTo
  by_cases hnan : v.isNaN = true
  · rw [Binary32.clamp_of_isNaN hnan, Binary32.toUInt32_eq, Binary32.unpacked_of_isNaN hnan]
    rfl
  · obtain ⟨hnumber, hvalue⟩ :=
      Binary32.value_clamp Binary32.isNaN_zero hlast (Bool.eq_false_iff.mpr hnan)
    have hzero : (Binary32.clamp Binary32.zero (Binary32.ofNat last) v).value = 0 := by
      rw [Binary32.value_zero] at hvalue
      omega
    rw [Binary32.toNat_toUInt32 hnumber, hzero]
    rfl

/-- **By a weight of zero nothing is blended in.** -/
theorem lerp_zero {bound : Nat} {v w : Binary32} (hpos : 0 < bound) (hlt : 2 * bound < 2 ^ 24)
    (hv : Within bound v) (hw : Within bound w) :
    Binary32.Equals (lerp v w Binary32.zero) v := by
  have hdifference : Within (bound + bound) (w - v) := hw.sub hv (by omega) (by omega)
  exact (Binary32.Equals.refl hv.number).add_zero
    (Binary32.equals_zero_mul (.refl rfl) (hdifference.isFinite (by omega)))

/-- Equal colours are equal after swizzling. -/
theorem Swizzle.apply_equals {swizzle : Vector Swizzle 4} {c d : Color} (hequals : c.Equals d) :
    (apply swizzle c).Equals (apply swizzle d) := by
  intro i
  rw [get_apply, get_apply]
  refine Binary32.equals_iff.mp ?_
  cases swizzle.get i with
  | r => exact (hequals.channel _).clampUnit
  | g => exact (hequals.channel _).clampUnit
  | b => exact (hequals.channel _).clampUnit
  | a => exact (hequals.channel _).clampUnit
  | zero => exact .refl Binary32.isNaN_zero
  | one => exact .refl Binary32.isNaN_one

/-! ## Levels -/

namespace BoundTexture

variable {b : BoundTexture} {coord : TexCoord} {lod : Binary32} {color texel : Color}

/-- At zero and below the magnification filter is used. -/
theorem filterFor_of_nonpos {s : Sampler} (hlod : Binary32.le lod Binary32.zero = true) :
    s.filterFor lod = s.magFilter := by
  have hnumber := (Binary32.isNaN_of_le hlod).1
  have hle := (Binary32.le_iff hnumber rfl).mp hlod
  unfold Sampler.filterFor
  exact if_neg fun hlt => Int.not_lt.mpr hle ((Binary32.lt_iff rfl hnumber).mp hlt)

/-- At zero and below the nearest level is the first one. -/
theorem levelChoice_nearest (hfilter : b.sampler.mipmapFilter = .nearest)
    (hlod : Binary32.le lod Binary32.zero = true) :
    b.levelChoice lod = .one b.view.minLevel := by
  have hnumber := (Binary32.isNaN_of_le hlod).1
  have hle := (Binary32.le_iff hnumber rfl).mp hlod
  unfold levelChoice View.levelAt
  rw [hfilter]
  simp only
  rw [chooseUpTo_nonpos (Binary32.roundHalfAway_nonpos hnumber hle), Nat.add_zero]

/-- At zero and below the first level is blended with the next by a weight of zero. -/
theorem levelChoice_linear (hfilter : b.sampler.mipmapFilter = .linear)
    (hlod : Binary32.le lod Binary32.zero = true) :
    b.levelChoice lod = .two b.view.minLevel (b.view.levelAt Binary32.one) Binary32.zero := by
  have habove : Binary32.larger lod Binary32.zero = Binary32.zero := by
    unfold Binary32.larger
    rw [hlod, Bool.or_true, if_pos rfl]
  have hnext : Binary32.floor Binary32.zero + Binary32.one = Binary32.one := rfl
  have hrest : Binary32.zero - Binary32.floor Binary32.zero = Binary32.zero := rfl
  have hbase : b.view.levelAt (Binary32.floor Binary32.zero) = b.view.minLevel := by
    have hzero : (Binary32.floor Binary32.zero).value ≤ 0 := Int.le_refl 0
    unfold View.levelAt
    rw [chooseUpTo_nonpos hzero, Nat.add_zero]
  unfold levelChoice
  rw [hfilter]
  simp only
  rw [habove, hnext, hrest, hbase]

/-- The texels that are decoded at the coordinate, at any level of the view, and the border
are numbers of magnitude at most one. -/
structure Modest (b : BoundTexture) (coord : TexCoord) : Prop where
  texels : ∀ t, b.selectedLayer coord = .ok t.layer → b.view.minLevel ≤ t.level →
    t.level < b.view.minLevel + b.view.numLevels →
    ∀ color, (b.source t.level t.layer).decoded? t = some color →
      ∀ i, Binary32.le (color.get i).abs Binary32.one = true
  border : ∀ i, Binary32.le (b.sampler.border.get i).abs Binary32.one = true

/-- A level of modest texels has bounded colours. -/
theorem Modest.within (hmodest : b.Modest coord) {level : Nat} {mode : FilterMode}
    (hlevel : b.view.minLevel ≤ level ∧ level < b.view.minLevel + b.view.numLevels)
    (hsample : b.sampleLevel coord level mode = .ok texel) : texel.Within (23 ^ 3) := by
  refine within_of_decoded (fun i => Binary32.within_of_le_abs (hmodest.border i)) ?_ hsample
  intro t hsame hlayer color hcolor i
  exact Binary32.within_of_le_abs (hmodest.texels t hlayer (hsame ▸ hlevel.1) (hsame ▸ hlevel.2)
    color hcolor i)

/-- **The nearest level is the first one.** -/
theorem sampleLod_nearest (hfilter : b.sampler.mipmapFilter = .nearest)
    (hlod : Binary32.le (b.effectiveLod lod) Binary32.zero = true) :
    b.sampleLod coord lod = b.sample coord := by
  unfold sampleLod sample
  simp only
  rw [levelChoice_nearest hfilter hlod, filterFor_of_nonpos hlod]

/-- Two levels are sampled, the first one as without a level of detail. -/
theorem sampleLod_linear (hfilter : b.sampler.mipmapFilter = .linear)
    (hlod : Binary32.le (b.effectiveLod lod) Binary32.zero = true) :
    b.sampleLod coord lod = (do
      let v ← b.sampleLevel coord b.view.minLevel b.sampler.magFilter
      let w ← b.sampleLevel coord (b.view.levelAt Binary32.one) b.sampler.magFilter
      return Swizzle.apply b.view.swizzle
        (Vector.ofFn fun i => lerp (v.get i) (w.get i) Binary32.zero)) := by
  unfold sampleLod
  simp only
  rw [levelChoice_linear hfilter hlod, filterFor_of_nonpos hlod]
  simp only [pure_bind]

/-- **The next level has a colour** where the first one has, or is the first one. -/
theorem exists_sampleLevel_next (hstored : b.image.Stored) (hof : b.view.Of b.image.desc)
    (hwords : b.image.desc.Words) {mode : FilterMode}
    (hfirst : b.sampleLevel coord b.view.minLevel mode = .ok texel)
    (hreach : b.view.numLevels = 1 ∨ b.LayerInside coord) :
    ∃ color, b.sampleLevel coord (b.view.levelAt Binary32.one) mode = .ok color := by
  obtain ⟨hlow, hhigh⟩ := View.levelAt_inside hof (hwords.levels_le hstored.flaw) Binary32.one
  by_cases hsame : b.view.levelAt Binary32.one = b.view.minLevel
  · rw [hsame]
    exact ⟨texel, hfirst⟩
  · obtain hone | ⟨layer, hselected, -, hlayer⟩ := hreach
    · omega
    · have hsound : (b.source (b.view.levelAt Binary32.one) layer).Sound :=
        ⟨hstored, Nat.lt_of_lt_of_le hhigh hof.levels.2,
          Nat.lt_of_lt_of_le hlayer hof.layers.2, hof.stride⟩
      exact sampleLevel_eq_ok hselected hsound (hwords.signedAt (by omega)) mode

/-- **Between two levels, too, nothing changes** but that the next one must have a colour. -/
theorem sampleLod_linear_equals (hstored : b.image.Stored) (hof : b.view.Of b.image.desc)
    (hwords : b.image.desc.Words) (hfilter : b.sampler.mipmapFilter = .linear)
    (hlod : Binary32.le (b.effectiveLod lod) Binary32.zero = true) (hmodest : b.Modest coord)
    (hsample : b.sample coord = .ok color) :
    (∀ color', b.sampleLod coord lod = .ok color' → color'.Equals color) ∧
      (b.view.numLevels = 1 ∨ b.LayerInside coord →
        ∃ color', b.sampleLod coord lod = .ok color') := by
  obtain ⟨v, hfirst, hcolor⟩ := bind_eq_ok.mp hsample
  obtain rfl := Except.ok.inj hcolor
  have hpos := hof.levels.1
  rw [sampleLod_linear hfilter hlod]
  constructor
  · intro color' hlinear
    obtain ⟨v', hfirst', hrest⟩ := bind_eq_ok.mp hlinear
    obtain rfl := Except.ok.inj (hfirst.symm.trans hfirst')
    obtain ⟨w, hnext, hcolor'⟩ := bind_eq_ok.mp hrest
    obtain rfl := Except.ok.inj hcolor'
    have hv := hmodest.within ⟨Nat.le_refl _, by omega⟩ hfirst
    have hw := hmodest.within
      (View.levelAt_inside hof (hwords.levels_le hstored.flaw) Binary32.one) hnext
    refine Swizzle.apply_equals fun i => Binary32.equals_iff.mp ?_
    rw [Color.get_ofFn]
    exact lerp_zero (by decide) (by decide) (hv i) (hw i)
  · intro hreach
    obtain ⟨w, hnext⟩ := exists_sampleLevel_next hstored hof hwords hfirst hreach
    exact ⟨_, bind_eq_ok.mpr ⟨v, hfirst, bind_eq_ok.mpr ⟨w, hnext, rfl⟩⟩⟩

/-- What fails without a level of detail fails with one. -/
theorem sampleLod_linear_error (hfilter : b.sampler.mipmapFilter = .linear)
    (hlod : Binary32.le (b.effectiveLod lod) Binary32.zero = true) {fault : Fault}
    (hsample : b.sample coord = .error fault) : b.sampleLod coord lod = .error fault := by
  unfold sample at hsample
  rw [sampleLod_linear hfilter hlod]
  cases hfirst : b.sampleLevel coord b.view.minLevel b.sampler.magFilter with
  | ok v =>
    rw [hfirst] at hsample
    cases hsample
  | error other =>
    rw [hfirst] at hsample
    obtain rfl := Except.error.inj hsample
    rfl

end BoundTexture

namespace Textures

variable {t : Textures} {unit : Nat} {b : BoundTexture} {coord : TexCoord} {lod : Binary32}

/-- **At and below zero there is one colour.**  With the nearest level, sampling at such a
level of detail is sampling without one.  Between two levels it fails where that fails, and
if both give colours they are equal, for texels and a border of magnitude at most one; and
there is a colour if the view has one level, or if the layer is one of the view, as it is up
to `2 ^ 24` layers. -/
theorem sampleLod_of_nonpos (hvalid : t.resources.Valid) (hbound : t.resolve unit = .ok (some b))
    (hwords : b.image.desc.Words)
    (hlod : Binary32.le (b.effectiveLod lod) Binary32.zero = true) :
    (b.sampler.mipmapFilter = .nearest → t.sampleLod unit coord lod = t.sample unit coord) ∧
    (b.sampler.mipmapFilter = .linear → b.Modest coord →
      (∀ fault, t.sample unit coord = .error fault → t.sampleLod unit coord lod = .error fault) ∧
      ∀ color, t.sample unit coord = .ok color →
        (∀ color', t.sampleLod unit coord lod = .ok color' → color'.Equals color) ∧
        (b.view.numLevels = 1 ∨ b.view.numLayers ≤ 2 ^ 24 ∨ b.LayerInside coord →
          ∃ color', t.sampleLod unit coord lod = .ok color')) := by
  obtain ⟨hstored, hof⟩ := resolve_eq_ok hvalid hbound
  rw [sample_eq hbound, sampleLod_eq hbound]
  refine ⟨fun hfilter => BoundTexture.sampleLod_nearest hfilter hlod, fun hfilter hmodest =>
    ⟨fun fault => BoundTexture.sampleLod_linear_error hfilter hlod, fun color hsample => ?_⟩⟩
  obtain ⟨hequals, hexists⟩ :=
    BoundTexture.sampleLod_linear_equals hstored hof hwords hfilter hlod hmodest hsample
  refine ⟨hequals, fun hreach => hexists (hreach.imp_right fun hlayer => ?_)⟩
  exact hlayer.elim (fun hfew => b.layerInside_of_few hof hwords hfew coord) id

/-- The whole of one new image, bound with a sampler. -/
def single (d : ImageDesc) (sampler : Sampler) : Textures where
  resources := .after [.createImage d.byteSize d, .createView ⟨1, 1⟩ default,
    .createSampler sampler]
  units := ⟨[some ⟨⟨1, 1⟩, ⟨1, 1⟩⟩]⟩

/-- Two texels, and one on the next level. -/
def darkLevels : ImageDesc := (ImageDesc.d1 .r8Unorm 2).withLevels 2

/-- What is bound of them. -/
def darkTexture : BoundTexture where
  image := ⟨darkLevels, #[0, 0, 0]⟩
  view := ⟨⟨1, 1⟩, .r8Unorm, 0, 2, 0, 1, Swizzle.identity⟩
  sampler := { Sampler.linear with mipmapFilter := .linear }

/-- The dark texture is modest at every coordinate. -/
theorem modest_darkTexture (coord : TexCoord) : darkTexture.Modest coord where
  texels t _ _ _ color hcolor := by
    obtain ⟨hlevel, hlayer, hx, hy, hz⟩ := TexelSource.contains_of_decoded? hcolor
    obtain ⟨level, layer, x, y, z⟩ := t
    obtain rfl : layer = 0 := Nat.lt_one_iff.mp hlayer
    have hplace : (level = 0 ∧ x = 0 ∨ level = 0 ∧ x = 1 ∨ level = 1 ∧ x = 0) ∧ y = 0 ∧ z = 0 := by
      have hfirst : darkLevels.levelExtent 0 = ⟨2, 1, 1⟩ := by decide
      have hsecond : darkLevels.levelExtent 1 = ⟨1, 1, 1⟩ := by decide
      change level < 2 at hlevel
      change x < (darkLevels.levelExtent level).x at hx
      change y < (darkLevels.levelExtent level).y at hy
      change z < 1 at hz
      obtain rfl | rfl : level = 0 ∨ level = 1 := by omega
      · simp only [hfirst] at hx hy
        omega
      · simp only [hsecond] at hx hy
        omega
    have hblack : some Color.opaqueBlack = some color := by
      rw [← hcolor]
      obtain ⟨⟨rfl, rfl⟩ | ⟨rfl, rfl⟩ | ⟨rfl, rfl⟩, rfl, rfl⟩ := hplace <;> decide +kernel
    obtain rfl := Option.some.inj hblack
    decide +kernel
  border := by decide +kernel

/-- Blending in the next level changes nothing. -/
theorem sampleLod_of_nonpos_darkLevels :
    ∃ color, (single darkLevels darkTexture.sampler).sampleLod 0 nowhere Binary32.zero
        = .ok color ∧ color.Equals Color.opaqueBlack := by
  have hbound : (single darkLevels darkTexture.sampler).resolve 0 = .ok (some darkTexture) := rfl
  have hwords : darkTexture.image.desc.Words := ⟨by decide, by decide, by decide, by decide⟩
  have hblack : (single darkLevels darkTexture.sampler).sample 0 nowhere
      = .ok Color.opaqueBlack := by
    decide +kernel
  have hlod : Binary32.le (darkTexture.effectiveLod Binary32.zero) Binary32.zero = true := by
    decide +kernel
  obtain ⟨-, hlinear⟩ := sampleLod_of_nonpos (Resources.after_valid _) hbound hwords hlod
  obtain ⟨hequals, hexists⟩ := (hlinear rfl (modest_darkTexture nowhere)).2 _ hblack
  obtain ⟨color, hcolor⟩ := hexists (.inr (.inl (by decide)))
  exact ⟨color, hcolor, hequals color hcolor⟩

/-- Pairs of texels, and one on the next level, in an array whose last layer, 16777219, is no
float. -/
def darkLayers : ImageDesc := ((ImageDesc.d1 .r8Unorm 2).withLayers 16777220).withLevels 2

/-- What is bound of them, with a border to the sides. -/
def bordered : BoundTexture where
  image := ⟨darkLayers, Array.replicate darkLayers.byteSize 0⟩
  view := ⟨⟨1, 1⟩, .r8Unorm, 0, 2, 0, 16777220, Swizzle.identity⟩
  sampler := { Sampler.nearest with addressU := .clampToBorder, mipmapFilter := .linear }

/-- To the side of the first level by less than a texel, inside the second, and beyond the
last layer. -/
def beside : TexCoord := #v[⟨0x3fa00000⟩, ⟨0x7f800000⟩, Binary32.zero]

/-- Behind the last layer no texel is decoded. -/
theorem modest_bordered : bordered.Modest beside where
  texels t hlayer _ _ color hcolor := by
    have hbehind : bordered.selectedLayer beside = .ok 16777220 := by decide +kernel
    have hsame : 16777220 = t.layer := Except.ok.inj (hbehind.symm.trans hlayer)
    have hlt : t.layer < 16777220 := (TexelSource.contains_of_decoded? hcolor).layer
    exact absurd hlt (by omega)
  border := by decide +kernel

/-- **The next level can fail for nothing**: the first one is its border there and fetches
nothing, and of the next one no texel is in the layer. -/
theorem sampleLod_beside :
    (single darkLayers bordered.sampler).resolve 0 = .ok (some bordered) ∧
      bordered.Modest beside ∧
      Binary32.le (bordered.effectiveLod Binary32.zero) Binary32.zero = true ∧
      (single darkLayers bordered.sampler).sample 0 beside = .ok Color.transparent ∧
      (single darkLayers bordered.sampler).sampleLod 0 beside Binary32.zero
        = .error (.invalidImage (.sampledOutside ⟨1, 16777220, 0, 0, 0⟩)) :=
  ⟨rfl, modest_bordered, by decide +kernel, by decide +kernel, by decide +kernel⟩

end Textures

end PixelPipeline
