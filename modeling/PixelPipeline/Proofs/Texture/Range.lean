import PixelPipeline.Proofs.Resource.Calls
import PixelPipeline.Proofs.Texture.Filtering
import PixelPipeline.Proofs.Texture.Selection

/-!
# Colours that sampling returns

If the texels of a view are numbers of magnitude at most one, and so are the channels
of the border, then every filter makes numbers of them, and the clamp of the swizzle
puts these into the unit interval, for every coordinate, infinite or NaN ones included.

Two levels are blended by what is left of the level of detail without its floor.  That
is at most one for a finite level of detail.  For an infinite one, which is what an
infinite clamp lets through, it is NaN, and so are the channels that are sampled
(`Textures.sample_range`).
-/

namespace PixelPipeline

open Binary32 (Within InUnit)

/-! ## Fetches -/

namespace TexelSource

variable {s : TexelSource} {memory memory' : BlockMemory} {t : TexelIndex} {color : Color}
  {bound : Nat}

/-- The colour that the bytes of a texel decode to. -/
def decoded? (s : TexelSource) (t : TexelIndex) : Option Color := (s.fetch? none t).map Prod.fst

/-- A texel that can be decoded lies in the image. -/
theorem contains_of_decoded? (hdecoded : s.decoded? t = some color) : s.image.Contains t := by
  refine Classical.byContradiction fun hnone => ?_
  unfold decoded? fetch? at hdecoded
  rw [Image.texelOffset?_eq_none hnone] at hdecoded
  cases hdecoded

/-- A remembered block is what its bytes decode to. -/
def Fresh (s : TexelSource) (memory : BlockMemory) : Prop :=
  ∀ start texels, memory = some (start, texels) → ∀ kind bytes, s.format.layout = .block kind →
    s.image.bytesAt? start s.format.stride = some bytes → Block.decode? kind bytes = some texels

/-- Without a memory nothing is remembered wrongly. -/
theorem fresh_none (s : TexelSource) : s.Fresh none := fun _ _ hmemory => by cases hmemory

/-- What is remembered of a block is what decoding gives. -/
theorem Fresh.blockTexels?_eq (hfresh : s.Fresh memory) {kind : BlockKind} {offset : Nat}
    {bytes : Bytes} (hlayout : s.format.layout = .block kind)
    (hbytes : s.image.bytesAt? offset s.format.stride = some bytes) :
    blockTexels? memory kind offset bytes = Block.decode? kind bytes := by
  unfold TexelSource.blockTexels?
  rcases memory with _ | ⟨start, remembered⟩
  · rfl
  · by_cases hstart : start = offset
    · obtain rfl := hstart
      simp only [if_true]
      exact (hfresh start remembered rfl kind bytes hlayout hbytes).symm
    · simp only [if_neg hstart]

/-- A remembered block changes no answer. -/
theorem Fresh.fetch? (hfresh : s.Fresh memory)
    (hfetch : s.fetch? memory t = some (color, memory')) :
    s.decoded? t = some color ∧ s.Fresh memory' := by
  unfold decoded?
  unfold TexelSource.fetch? at hfetch ⊢
  obtain ⟨offset, hoffset, hrest⟩ := Option.bind_eq_some_iff.mp hfetch
  obtain ⟨bytes, hbytes, hrest⟩ := Option.bind_eq_some_iff.mp hrest
  simp only [hoffset, hbytes, Option.bind_eq_bind, Option.bind_some]
  cases hlayout : s.format.layout with
  | block kind =>
    rw [hlayout] at hrest
    obtain ⟨texels, htexels, hanswer⟩ := Option.bind_eq_some_iff.mp hrest
    obtain ⟨rfl, rfl⟩ := Prod.mk.inj (Option.some.inj hanswer)
    have hdecode := hfresh.blockTexels?_eq hlayout hbytes ▸ htexels
    have hnone : TexelSource.blockTexels? none kind offset bytes = some texels := hdecode
    simp only [hnone, Option.bind_some]
    refine ⟨rfl, fun start texels' hmemory kind' bytes' hlayout' hbytes' => ?_⟩
    obtain ⟨rfl, rfl⟩ := Prod.mk.inj (Option.some.inj hmemory)
    obtain rfl := Option.some.inj (hbytes.symm.trans hbytes')
    obtain rfl := Layout.block.inj (hlayout.symm.trans hlayout')
    exact hdecode
  | _ =>
    rw [hlayout] at hrest
    obtain ⟨decoded, hdecode, hanswer⟩ := Option.bind_eq_some_iff.mp hrest
    obtain ⟨rfl, rfl⟩ := Prod.mk.inj (Option.some.inj hanswer)
    simp only [hdecode, Option.bind_some]
    exact ⟨rfl, hfresh⟩

/-- Fetching answers with what the bytes decode to. -/
theorem Fresh.fetch (hfresh : s.Fresh memory) {indices : List Int}
    (hfetch : s.fetch indices memory = .ok (color, memory')) :
    s.decoded? (s.texelIndex indices) = some color ∧ s.Fresh memory' := by
  unfold TexelSource.fetch at hfetch
  simp only at hfetch
  cases hanswer : s.fetch? memory (s.texelIndex indices) with
  | none =>
    rw [hanswer] at hfetch
    cases hfetch
  | some answer =>
    rw [hanswer] at hfetch
    obtain rfl := Except.ok.inj hfetch
    exact hfresh.fetch? hanswer

/-- Fetching keeps the memory fresh, and its colours keep the bound of the texels. -/
theorem keeps_fetch (hdecoded : ∀ t, t.level = s.level → t.layer = s.layer → ∀ color,
      s.decoded? t = some color → color.Within bound) (indices : List Int) :
    Keeps s.Fresh (Color.Within bound) (s.fetch indices) := by
  intro memory color memory' hfresh hfetch
  obtain ⟨hcolor, hfresh'⟩ := hfresh.fetch hfetch
  exact ⟨hdecoded _ rfl rfl color hcolor, hfresh'⟩

end TexelSource

/-! ## Swizzles -/

namespace Swizzle

variable {texel : Color}

/-- Whether the selection is a channel of the texel. -/
def isChannel : Swizzle → Bool
  | .zero | .one => false
  | _ => true

/-- A swizzled channel is what its selector selects. -/
theorem get_apply (swizzle : Vector Swizzle 4) (texel : Color) (i : Fin 4) :
    (apply swizzle texel).get i = (swizzle.get i).select texel := by
  unfold apply Vector.get
  simp

/-- Numbers are selected into the unit interval. -/
theorem inUnit_select (hnumber : ∀ i, (texel.get i).isNaN = false) (s : Swizzle) :
    InUnit (s.select texel) := by
  cases s with
  | r => exact Binary32.inUnit_clampUnit_iff.mpr (hnumber _)
  | g => exact Binary32.inUnit_clampUnit_iff.mpr (hnumber _)
  | b => exact Binary32.inUnit_clampUnit_iff.mpr (hnumber _)
  | a => exact Binary32.inUnit_clampUnit_iff.mpr (hnumber _)
  | zero => exact Binary32.inUnit_zero
  | one => exact Binary32.inUnit_one

/-- Channels that are NaN are selected as they are. -/
theorem isNaN_select (hnan : ∀ i, (texel.get i).isNaN = true) (s : Swizzle) :
    (s.select texel).isNaN = s.isChannel := by
  have hclamp : ∀ i, (Binary32.clampUnit (texel.get i)).isNaN = true := by
    intro i
    unfold Binary32.clampUnit
    rw [Binary32.clamp_of_isNaN (hnan i)]
    exact hnan i
  cases s with
  | r => exact hclamp _
  | g => exact hclamp _
  | b => exact hclamp _
  | a => exact hclamp _
  | zero => exact Binary32.inUnit_zero.number
  | one => exact Binary32.inUnit_one.number

end Swizzle

/-! ## Levels -/

namespace BoundTexture

variable {b : BoundTexture} {coord : TexCoord} {level : Nat} {mode : FilterMode} {color : Color}
  {lod : Binary32}

/-- The texels of the view are numbers of magnitude at most one, and the border lies in
the unit interval. -/
structure Tame (b : BoundTexture) : Prop where
  texels : ∀ t, b.view.minLevel ≤ t.level → t.level < b.view.minLevel + b.view.numLevels →
    b.view.minLayer ≤ t.layer → t.layer < b.view.minLayer + b.view.numLayers →
    ∀ color, (b.source t.level t.layer).decoded? t = some color →
      ∀ i, Binary32.le (color.get i).abs Binary32.one = true
  border : b.sampler.border.InUnit

/-- The levels and the layer that are sampled are ones of the view. -/
structure Selects (b : BoundTexture) (coord : TexCoord) : Prop where
  layer : b.LayerInside coord
  levels : ∀ lod, ∀ level ∈ b.view.minLevel :: (b.levelChoice lod).levels,
    b.view.minLevel ≤ level ∧ level < b.view.minLevel + b.view.numLevels

/-- The fractions of the axes lie between minus one and one. -/
theorem within_frac_axes (b : BoundTexture) (coord : TexCoord) (level : Nat) :
    ∀ axis ∈ b.axes coord level, Within 1 axis.frac := by
  intro axis hmem
  unfold axes at hmem
  obtain ⟨⟨c, size, mode⟩, -, rfl⟩ := List.mem_map.mp (List.mem_of_mem_take hmem)
  exact AxisCoord.within_frac c size mode

/-- There are at most three axes. -/
theorem length_axes_le (b : BoundTexture) (coord : TexCoord) (level : Nat) :
    (b.axes coord level).length ≤ 3 := by
  have hthree : b.image.desc.imageType.axes ≤ 3 := by
    cases b.image.desc.imageType <;> decide
  exact Nat.le_trans (List.length_take_le _ _) hthree

/-- A level of bounded texels has bounded colours everywhere. -/
theorem within_of_decoded (hborder : b.sampler.border.Within 1)
    (hdecoded : ∀ t, t.level = level → b.selectedLayer coord = .ok t.layer → ∀ color,
      (b.source t.level t.layer).decoded? t = some color → color.Within 1)
    (hsample : b.sampleLevel coord level mode = .ok color) : color.Within (23 ^ 3) := by
  obtain ⟨layer, hselected⟩ := selectedLayer_of_sampleLevel hsample
  let s := b.source level layer
  have htexels : ∀ t, t.level = s.level → t.layer = s.layer → ∀ color,
      s.decoded? t = some color → color.Within 1 := by
    intro t hlevel hlayer color hcolor
    have hsame : b.source t.level t.layer = s := by
      rw [hlevel, hlayer]
      rfl
    have hlayer' : t.layer = layer := hlayer
    exact hdecoded t hlevel (hlayer' ▸ hselected) color (hsame ▸ hcolor)
  have hpow : 23 ^ (b.axes coord level).length ≤ 23 ^ 3 :=
    Nat.pow_le_pow_right (by decide) (b.length_axes_le coord level)
  have hkeeps : Keeps s.Fresh (Color.Within (23 ^ (b.axes coord level).length * 1))
      (filter mode b.sampler.border s.fetch (b.axes coord level) []) :=
    .filter (by decide) (by omega) (b.within_frac_axes coord level)
      hborder (s.keeps_fetch htexels)
  rw [sampleLevel_eq hselected] at hsample
  cases hrun : filter mode b.sampler.border s.fetch (b.axes coord level) [] none with
  | error fault =>
    rw [hrun] at hsample
    cases hsample
  | ok answer =>
    rw [hrun] at hsample
    obtain rfl := Except.ok.inj hsample
    exact (hkeeps none answer.1 answer.2 s.fresh_none hrun).1.mono (by omega)

/-- **A level of tame texels has tame colours everywhere.** -/
theorem sampleLevel_within (htame : b.Tame) (hselects : b.Selects coord)
    (hlevel : b.view.minLevel ≤ level ∧ level < b.view.minLevel + b.view.numLevels)
    (hsample : b.sampleLevel coord level mode = .ok color) : color.Within (23 ^ 3) := by
  refine within_of_decoded (fun i => (htame.border i).within) ?_ hsample
  intro t hlevel' hlayer' color hcolor i
  obtain ⟨layer, hselected, hlow, hhigh⟩ := hselects.layer
  obtain rfl := Except.ok.inj (hlayer'.symm.trans hselected)
  exact Binary32.within_of_le_abs (htame.texels t (hlevel' ▸ hlevel.1) (hlevel' ▸ hlevel.2)
    hlow hhigh color hcolor i)

/-- A level of a layer with its storage gives a colour everywhere. -/
theorem sampleLevel_eq_ok {layer : Nat} (hselected : b.selectedLayer coord = .ok layer)
    (hsound : (b.source level layer).Sound) (hsigned : b.image.desc.SignedAt level)
    (mode : FilterMode) :
    ∃ color, b.sampleLevel coord level mode = .ok color := by
  let s := b.source level layer
  have hsizes : AxisCoord.sizes (b.axes coord level) = s.sizes :=
    b.sizes_axes coord hsound.level hsigned _
  have hpos : ∀ size ∈ AxisCoord.sizes (b.axes coord level), 0 < size := by
    rw [hsizes]
    exact hsound.sizes_pos
  have hfetch : ∀ indices, Inside (AxisCoord.sizes (b.axes coord level)) indices →
      ∀ memory, ∃ color memory', s.fetch indices memory = .ok (color, memory') :=
    fun indices hinside => (hsound.reads (hsizes ▸ hinside)).answer
  have hfilter : ∃ color log memory, filter mode b.sampler.border (noted s.fetch)
        (b.axes coord level) [] ([], none) = .ok (color, log, memory) ∧
      filter mode b.sampler.border s.fetch (b.axes coord level) [] none = .ok (color, memory) ∧
      ∀ indices ∈ log, Inside (AxisCoord.sizes (b.axes coord level)) indices :=
    filter_noted hpos hfetch none
  obtain ⟨color, -, memory, -, hrun, -⟩ := hfilter
  rw [sampleLevel_eq hselected]
  exact ⟨color, congrArg (Except.map Prod.fst) hrun⟩

/-! ## Levels of detail -/

/-- The level of detail is infinite, and two levels are blended. -/
def BlendsInfinity (b : BoundTexture) (lod : Binary32) : Prop :=
  b.sampler.mipmapFilter = .linear ∧ b.effectiveLod lod = ⟨0x7f800000⟩

/-- Two levels are blended by what is left of the level of detail without its floor. -/
theorem weight_eq {near far : Nat} {weight : Binary32}
    (hchoice : b.levelChoice lod = .two near far weight) : b.sampler.mipmapFilter = .linear ∧
      weight = Binary32.larger lod Binary32.zero
        - Binary32.floor (Binary32.larger lod Binary32.zero) := by
  unfold levelChoice at hchoice
  cases hfilter : b.sampler.mipmapFilter with
  | nearest =>
    rw [hfilter] at hchoice
    cases hchoice
  | linear =>
    rw [hfilter] at hchoice
    exact ⟨rfl, (LevelChoice.two.inj hchoice).2.2.symm⟩

/-- **What sampling returns lies in the unit interval**, if the texture is tame. -/
theorem sample_inUnit (htame : b.Tame) (hselects : b.Selects coord)
    (hsample : b.sample coord = .ok color) : color.InUnit := by
  obtain ⟨texel, hlevel, hrest⟩ := bind_eq_ok.mp hsample
  obtain rfl := Except.ok.inj hrest
  have hinside := hselects.levels Binary32.zero _ List.mem_cons_self
  have hwithin := sampleLevel_within htame hselects hinside hlevel
  intro i
  rw [Swizzle.get_apply]
  exact Swizzle.inUnit_select (fun i => (hwithin i).number) _

/-- The texel that is rearranged to the colour at a level of detail. -/
theorem exists_texel (hsample : b.sampleLod coord lod = .ok color) :
    ∃ texel mode, color = Swizzle.apply b.view.swizzle texel ∧
      ((∃ level, b.levelChoice (b.effectiveLod lod) = .one level ∧
          b.sampleLevel coord level mode = .ok texel) ∨
        ∃ near far weight v w, b.levelChoice (b.effectiveLod lod) = .two near far weight ∧
          b.sampleLevel coord near mode = .ok v ∧ b.sampleLevel coord far mode = .ok w ∧
          texel = Vector.ofFn fun i => lerp (v.get i) (w.get i) weight) := by
  unfold sampleLod at hsample
  simp only at hsample
  cases hchoice : b.levelChoice (b.effectiveLod lod) with
  | one level =>
    rw [hchoice] at hsample
    obtain ⟨texel, htexel, hrest⟩ := bind_eq_ok.mp hsample
    exact ⟨texel, _, (Except.ok.inj hrest).symm, .inl ⟨level, rfl, htexel⟩⟩
  | two near far weight =>
    rw [hchoice] at hsample
    obtain ⟨v, hnear, hrest⟩ := bind_eq_ok.mp hsample
    obtain ⟨w, hfar, hrest⟩ := bind_eq_ok.mp hrest
    exact ⟨_, _, (Except.ok.inj hrest).symm,
      .inr ⟨near, far, weight, v, w, rfl, hnear, hfar, rfl⟩⟩

/-- The texel is made of numbers, unless two levels are blended at an infinite level of
detail, where every channel is NaN. -/
theorem isNaN_texel (htame : b.Tame) (hselects : b.Selects coord)
    (hsample : b.sampleLod coord lod = .ok color) :
    ∃ texel, color = Swizzle.apply b.view.swizzle texel ∧
      (¬ b.BlendsInfinity lod → ∀ i, (texel.get i).isNaN = false) ∧
      (b.BlendsInfinity lod → ∀ i, (texel.get i).isNaN = true) := by
  have hinside := hselects.levels (b.effectiveLod lod)
  obtain ⟨texel, mode, hcolor, ⟨level, hchoice, htexel⟩ |
    ⟨near, far, weight, v, w, hchoice, hnear, hfar, rfl⟩⟩ := exists_texel hsample
  · rw [hchoice] at hinside
    have hwithin := sampleLevel_within htame hselects (hinside level (by simp [LevelChoice.levels]))
      htexel
    refine ⟨texel, hcolor, fun _ i => (hwithin i).number, fun hinfinite => ?_⟩
    unfold levelChoice at hchoice
    rw [hinfinite.1] at hchoice
    cases hchoice
  · rw [hchoice] at hinside
    have hv := sampleLevel_within htame hselects (hinside near (by simp [LevelChoice.levels])) hnear
    have hw := sampleLevel_within htame hselects (hinside far (by simp [LevelChoice.levels])) hfar
    obtain ⟨hlinear, hweight⟩ := weight_eq hchoice
    refine ⟨_, hcolor, fun hfinite i => ?_, fun hinfinite i => ?_⟩
    · have hlod : b.effectiveLod lod ≠ ⟨0x7f800000⟩ := fun hlod => hfinite ⟨hlinear, hlod⟩
      have hone : Within 1 weight := by
        rw [hweight]
        exact Binary32.within_sub_floor (Binary32.isFinite_larger_zero hlod)
      rw [Color.get_ofFn]
      exact (lerp_within (by decide) (by decide) (hv i) (hw i) hone).number
    · have hnan : weight.isNaN = true := by
        rw [hweight, hinfinite.2]
        exact Binary32.isNaN_infinity_sub_floor
      rw [Color.get_ofFn]
      exact Binary32.isNaN_lift (.inr (Binary32.isNaN_lift (.inr hnan)))

/-- **The colour at a level of detail** is in the unit interval, unless two levels are
blended at an infinite one, where every sampled channel is NaN. -/
theorem sampleLod_range (htame : b.Tame) (hselects : b.Selects coord)
    (hsample : b.sampleLod coord lod = .ok color) :
    (¬ b.BlendsInfinity lod → color.InUnit) ∧
      (b.BlendsInfinity lod →
        ∀ i, (color.get i).isNaN = (b.view.swizzle.get i).isChannel) := by
  obtain ⟨texel, rfl, hfinite, hinfinite⟩ := isNaN_texel htame hselects hsample
  refine ⟨fun hblend i => ?_, fun hblend i => ?_⟩
  · rw [Swizzle.get_apply]
    exact Swizzle.inUnit_select (hfinite hblend) _
  · rw [Swizzle.get_apply]
    exact Swizzle.isNaN_select (hinfinite hblend) _

/-- Where every level that is sampled gives a colour, so does every level of detail. -/
theorem sampleLod_eq_ok (hlevels : ∀ lod, ∀ level ∈ (b.levelChoice lod).levels, ∀ mode,
      ∃ color, b.sampleLevel coord level mode = .ok color) (lod : Binary32) :
    ∃ color, b.sampleLod coord lod = .ok color := by
  have hsampled := hlevels (b.effectiveLod lod)
  unfold sampleLod
  simp only
  cases hchoice : b.levelChoice (b.effectiveLod lod) with
  | one level =>
    rw [hchoice] at hsampled
    obtain ⟨texel, htexel⟩ := hsampled level (by simp [LevelChoice.levels]) _
    simp only
    rw [htexel]
    exact ⟨_, rfl⟩
  | two near far weight =>
    rw [hchoice] at hsampled
    obtain ⟨v, hnear⟩ := hsampled near (by simp [LevelChoice.levels]) _
    obtain ⟨w, hfar⟩ := hsampled far (by simp [LevelChoice.levels]) _
    simp only
    rw [hnear, hfar]
    exact ⟨_, rfl⟩

end BoundTexture

/-! ## Texture units -/

namespace Textures

variable {t : Textures} {unit : Nat} {b : BoundTexture}

/-- What is bound lives, and the view lies in its image. -/
theorem resolve_eq_ok (hvalid : t.resources.Valid) (hbound : t.resolve unit = .ok (some b)) :
    b.image.Stored ∧ b.view.Of b.image.desc := by
  unfold resolve at hbound
  obtain ⟨binding, -, hrest⟩ := bind_eq_ok.mp hbound
  cases binding with
  | none => cases hrest
  | some binding =>
    obtain ⟨view, hview, hrest⟩ := bind_eq_ok.mp hrest
    obtain ⟨image, himage, hrest⟩ := bind_eq_ok.mp hrest
    obtain ⟨sampler, -, hrest⟩ := bind_eq_ok.mp hrest
    obtain rfl := Option.some.inj (Except.ok.inj hrest)
    have hlive := Resources.image_eq_ok.mp himage
    obtain ⟨i, hget, hof⟩ := hvalid.viewed _ _ (Resources.resolve_eq_ok.mp hview)
    obtain rfl := Option.some.inj (hget.symm.trans hlive)
    exact ⟨hvalid.stored _ _ hlive, hof⟩

/-- Sampling a unit samples the texture that is bound to it. -/
theorem sample_eq (hbound : t.resolve unit = .ok (some b)) (coord : TexCoord) :
    t.sample unit coord = b.sample coord := by
  unfold sample
  rw [hbound]
  rfl

/-- Sampling a unit at a level of detail samples the texture that is bound to it. -/
theorem sampleLod_eq (hbound : t.resolve unit = .ok (some b)) (coord : TexCoord)
    (lod : Binary32) : t.sampleLod unit coord lod = b.sampleLod coord lod := by
  unfold sampleLod
  rw [hbound]
  rfl

/-- **What sampling returns lies in the unit interval**, unless two levels are blended at
an infinite level of detail, where every sampled channel is NaN.  The view may be any
that is live and bound, its texels and the border being tame; the coordinate may be any
that selects a layer of the view, as every one does up to `2 ^ 24` layers.  There is a
colour as long as the axes fit signed words. -/
theorem sample_range (hvalid : t.resources.Valid) (hbound : t.resolve unit = .ok (some b))
    (hwords : b.image.desc.Words) (htame : b.Tame) {coord : TexCoord}
    (hlayer : b.view.numLayers ≤ 2 ^ 24 ∨ b.LayerInside coord) :
    (∀ color, t.sample unit coord = .ok color → color.InUnit) ∧
      (∀ lod color, t.sampleLod unit coord lod = .ok color →
        (¬ b.BlendsInfinity lod → color.InUnit) ∧
          (b.BlendsInfinity lod →
            ∀ i, (color.get i).isNaN = (b.view.swizzle.get i).isChannel)) ∧
      (b.image.desc.Signed32 →
        (∃ color, t.sample unit coord = .ok color) ∧
          ∀ lod, ∃ color, t.sampleLod unit coord lod = .ok color) := by
  obtain ⟨hstored, hof⟩ := resolve_eq_ok hvalid hbound
  have hinside : b.LayerInside coord :=
    hlayer.elim (fun hfew => b.layerInside_of_few hof hwords hfew coord) id
  have hselects : b.Selects coord :=
    ⟨hinside, b.levels_inside hof (hwords.levels_le hstored.flaw)⟩
  simp only [sample_eq hbound, sampleLod_eq hbound]
  refine ⟨fun color hsample => BoundTexture.sample_inUnit htame hselects hsample,
    fun lod color hsample => BoundTexture.sampleLod_range htame hselects hsample, ?_⟩
  intro hsigned
  obtain ⟨layer, hselected, hlow, hhigh⟩ := hinside
  have hlevel : ∀ lod, ∀ level ∈ b.view.minLevel :: (b.levelChoice lod).levels, ∀ mode,
      ∃ color, b.sampleLevel coord level mode = .ok color := by
    intro lod level hmem
    have hlevel := hselects.levels lod level hmem
    have hsound : (b.source level layer).Sound :=
      ⟨hstored, Nat.lt_of_lt_of_le hlevel.2 hof.levels.2,
        Nat.lt_of_lt_of_le hhigh hof.layers.2, hof.stride⟩
    exact BoundTexture.sampleLevel_eq_ok hselected hsound (hsigned.signedAt level)
  constructor
  · obtain ⟨texel, htexel⟩ := hlevel Binary32.zero b.view.minLevel List.mem_cons_self _
    exact ⟨_, bind_eq_ok.mpr ⟨texel, htexel, rfl⟩⟩
  · exact BoundTexture.sampleLod_eq_ok fun lod level hmem =>
      hlevel lod level (List.mem_cons_of_mem _ hmem)

/-- A pixel, its view, and a sampler that blends levels and clamps none, bound to a unit. -/
def blended : Textures where
  resources := .after [.createImage 1 (.d2 .r8Unorm 1 1), .createView ⟨1, 1⟩ default,
    .createSampler { Sampler.linear with mipmapFilter := .linear, lodMax := ⟨0x7f800000⟩ }]
  units := ⟨[some ⟨⟨1, 1⟩, ⟨1, 1⟩⟩]⟩

/-- What is bound there. -/
def blendedPixel : BoundTexture where
  image := ⟨.d2 .r8Unorm 1 1, #[0]⟩
  view := ⟨⟨1, 1⟩, .r8Unorm, 0, 1, 0, 1, Swizzle.identity⟩
  sampler := { Sampler.linear with mipmapFilter := .linear, lodMax := ⟨0x7f800000⟩ }

/-- The blended texture is bound to the first unit. -/
theorem resolve_blended : blended.resolve 0 = .ok (some blendedPixel) := rfl

/-- The pixel is opaque black. -/
theorem tame_blendedPixel : blendedPixel.Tame where
  texels t _ hlevel _ hlayer color hcolor := by
    obtain ⟨-, -, hx, hy, hz⟩ := TexelSource.contains_of_decoded? hcolor
    obtain ⟨level, layer, x, y, z⟩ := t
    obtain rfl : level = 0 := Nat.lt_one_iff.mp hlevel
    obtain rfl : layer = 0 := Nat.lt_one_iff.mp hlayer
    obtain rfl : x = 0 := Nat.lt_one_iff.mp hx
    obtain rfl : y = 0 := Nat.lt_one_iff.mp hy
    obtain rfl : z = 0 := Nat.lt_one_iff.mp hz
    have hblack : (blendedPixel.source 0 0).decoded? ⟨0, 0, 0, 0, 0⟩
        = some Color.opaqueBlack := by decide +kernel
    obtain rfl := Option.some.inj (hblack.symm.trans hcolor)
    decide +kernel
  border i := (Color.get_transparent i).symm ▸ Binary32.inUnit_zero

/-- A coordinate that is nowhere. -/
def nowhere : TexCoord := #v[⟨0x7fc00000⟩, ⟨0xff800000⟩, ⟨0x7f800000⟩]

/-- At the first level the pixel is a colour, also nowhere. -/
theorem sample_range_nowhere :
    ∃ color, blended.sampleLod 0 nowhere Binary32.zero = .ok color ∧ color.InUnit := by
  have hwords : blendedPixel.image.desc.Words := ⟨by decide, by decide, by decide, by decide⟩
  have hlayer : blendedPixel.view.numLayers ≤ 2 ^ 24 ∨ blendedPixel.LayerInside nowhere :=
    .inl (by decide)
  have hfinite : ¬ blendedPixel.BlendsInfinity Binary32.zero := fun hblends =>
    absurd hblends.2 (by decide +kernel)
  obtain ⟨-, hrange, hcolors⟩ :=
    sample_range (Resources.after_valid _) resolve_blended hwords tame_blendedPixel hlayer
  obtain ⟨-, hlods⟩ := hcolors ⟨by decide, by decide, by decide⟩
  obtain ⟨color, hcolor⟩ := hlods Binary32.zero
  exact ⟨color, hcolor, (hrange _ color hcolor).1 hfinite⟩

/-- At an infinite level of detail it is NaN. -/
theorem sampleLod_infinity :
    blended.resolve 0 = .ok (some blendedPixel) ∧ blendedPixel.Tame ∧
      ∃ color, blended.sampleLod 0 nowhere ⟨0x7f800000⟩ = .ok color ∧
        ∀ i, (color.get i).isNaN = true := by
  refine ⟨resolve_blended, tame_blendedPixel, ?_⟩
  have hanswer : (blended.sampleLod 0 nowhere ⟨0x7f800000⟩).toOption
      = some (Vector.replicate 4 Binary32.invalid) := by decide +kernel
  cases hsample : blended.sampleLod 0 nowhere ⟨0x7f800000⟩ with
  | error fault =>
    rw [hsample] at hanswer
    cases hanswer
  | ok color =>
    rw [hsample] at hanswer
    obtain rfl := Option.some.inj hanswer
    exact ⟨_, rfl, by decide +kernel⟩

end Textures

end PixelPipeline
