import PixelPipeline.Proofs.Image.Codec
import PixelPipeline.Proofs.Resource.Valid
import PixelPipeline.Proofs.Texture.Taps
import PixelPipeline.Texture.Sample

/-!
# Sampling stays inside the image

Sampling multiplies coordinates by extents, saturates, wraps, addresses storage
units and decodes bytes in the format of a view.  `TexelSource.Reads` says that
one fetch goes well in all of this, and `sampleLevel_reads` that every fetch of
every filter does: whatever the coordinate and the sampler, sampling a level of
a layer of a created image answers with a colour.

The extents must fit a signed 32-bit word, since the axes count in one.
-/

namespace PixelPipeline

/-! ## Decoding -/

namespace Format

variable {f : Format} {bytes : Bytes}

/-- The bytes are a texel, or a block of texels, of the format. -/
def Decodes (f : Format) (bytes : Bytes) : Prop :=
  match f.layout with
  | .block kind => ∃ texels, Block.decode? kind bytes = some texels
  | _ => ∃ color, f.decode? bytes = some color

/-- A format decodes as many bytes as its stride. -/
theorem decodes_of_length (hlength : bytes.length = f.stride) : f.Decodes bytes := by
  have hlong : ¬ bytes.length < f.stride := by omega
  unfold Decodes
  cases hlayout : f.layout with
  | plain | packed =>
    unfold decode?
    rw [if_neg hlong, hlayout]
    exact ⟨_, rfl⟩
  | depth32 | depth24Stencil8 =>
    have hdepth : f.hasDepth = true := by
      unfold hasDepth
      rw [hlayout]
    obtain ⟨depth, hread⟩ := readDepth?_eq_some hdepth hlength
    unfold decode?
    rw [if_neg hlong, hlayout]
    exact ⟨redOnly depth, congrArg (Option.map redOnly) hread⟩
  | stencil8 =>
    have hstencil : f.hasStencil = true := by
      unfold hasStencil
      rw [hlayout]
    obtain ⟨value, hread⟩ := readStencil?_eq_some hstencil hlength
    unfold decode?
    rw [if_neg hlong, hlayout]
    exact ⟨_, congrArg (Option.map _) hread⟩
  | block kind =>
    have hsize : ¬ bytes.length < kind.size := by
      unfold stride at hlong
      rw [hlayout] at hlong
      exact hlong
    have hdecode : ∃ texels, Block.decode? kind bytes = some texels := by
      unfold Block.decode?
      rw [if_neg hsize]
      exact ⟨_, rfl⟩
    exact hdecode

end Format

/-! ## Extents -/

namespace ImageDesc

variable {d : ImageDesc}

/-- The extents of the level fit a signed 32-bit word. -/
structure SignedAt (d : ImageDesc) (level : Nat) : Prop where
  x : (d.levelExtent level).x < 2 ^ 31
  y : (d.levelExtent level).y < 2 ^ 31
  z : (d.levelExtent level).z < 2 ^ 31

/-- Every extent fits a signed 32-bit word. -/
structure Signed32 (d : ImageDesc) : Prop where
  width : d.width ≤ 2 ^ 31 - 1
  height : d.height ≤ 2 ^ 31 - 1
  depth : d.depth ≤ 2 ^ 31 - 1

/-- No level is empty. -/
theorem levelExtent_pos (d : ImageDesc) (level : Nat) :
    0 < (d.levelExtent level).x ∧ 0 < (d.levelExtent level).y ∧ 0 < (d.levelExtent level).z := by
  unfold levelExtent
  simp only
  refine ⟨by omega, by omega, ?_⟩
  split
  · omega
  · omega

/-- Levels are no larger than the bound of the extents. -/
theorem Signed32.signedAt (hsigned : d.Signed32) (level : Nat) : d.SignedAt level := by
  have hshrink : ∀ size, size ≤ 2 ^ 31 - 1 → max (size >>> level) 1 < 2 ^ 31 := by
    intro size hsize
    have hle : size >>> level ≤ size := Nat.shiftRight_le size level
    omega
  refine ⟨hshrink _ hsigned.width, hshrink _ hsigned.height, ?_⟩
  unfold levelExtent
  simp only
  split
  · exact hshrink _ hsigned.depth
  · omega

end ImageDesc

/-! ## Fetching -/

namespace TexelSource

variable {s : TexelSource} {indices : List Int}

/-- The sizes of the axes that a filter goes along. -/
def sizes (s : TexelSource) : List Int :=
  let e := s.image.extent s.level
  [(e.x : Int), (e.y : Int), (e.z : Int)].take s.image.desc.imageType.axes

/-- The source is a layer of a level of a stored image, in a format of the same
stride. -/
structure Sound (s : TexelSource) : Prop where
  stored : s.image.Stored
  level : s.level < s.image.desc.levels
  layer : s.layer < s.image.desc.layers
  stride : s.format.stride = s.image.desc.format.stride

/-- Fetching at these indices goes well: they lie inside the extent of the level
on the axes of the image and are zero on the others, the bytes of the texel lie
inside the storage and are a texel of the format, and whatever block is
remembered, there is an answer. -/
structure Reads (s : TexelSource) (indices : List Int) : Prop where
  filtered : Inside s.sizes indices
  unfiltered : ∀ axis, s.image.desc.imageType.axes ≤ axis → indices[axis]?.getD 0 = 0
  texel : s.image.Contains (s.texelIndex indices)
  bytes : ∃ offset bytes, s.image.texelOffset? (s.texelIndex indices) = some offset ∧
    offset + s.format.stride ≤ s.image.data.size ∧
    s.image.bytesAt? offset s.format.stride = some bytes ∧ s.format.Decodes bytes
  answer : ∀ memory, ∃ color memory', s.fetch indices memory = .ok (color, memory')

/-- There is a size for every axis. -/
theorem length_sizes (s : TexelSource) : s.sizes.length = s.image.desc.imageType.axes := by
  unfold sizes
  rw [List.length_take]
  cases s.image.desc.imageType <;> rfl

/-- The extent of the level is that of the description. -/
theorem Sound.extent (hsound : s.Sound) :
    s.image.extent s.level = s.image.desc.levelExtent s.level := if_pos hsound.level

/-- No size of a sound source is zero. -/
theorem Sound.sizes_pos (hsound : s.Sound) : ∀ size ∈ s.sizes, 0 < size := by
  obtain ⟨hx, hy, hz⟩ := s.image.desc.levelExtent_pos s.level
  intro size hmem
  unfold sizes at hmem
  rw [hsound.extent] at hmem
  have hall := List.mem_of_mem_take hmem
  simp only [List.mem_cons, List.not_mem_nil, or_false] at hall
  omega

/-- An index below the size of its axis; where there is none, zero. -/
theorem coord_lt {sizes : List Int} {count axis size : Nat}
    (hinside : Inside (sizes.take count) indices)
    (hsize : sizes[axis]? = some (size : Int)) (hpos : 0 < size) :
    (indices[axis]?.getD 0).toNat < size := by
  cases hindex : indices[axis]? with
  | none => exact hpos
  | some index =>
    obtain ⟨hlt, hget⟩ := List.getElem?_eq_some_iff.mp hindex
    have hrange := hinside.get (hinside.length_eq ▸ hlt) hlt
    simp only [List.get_eq_getElem, List.getElem_take] at hrange
    rw [hget, (List.getElem?_eq_some_iff.mp hsize).2] at hrange
    rw [Option.getD_some]
    omega

/-- An index inside the sizes is a texel of the image. -/
theorem Sound.contains (hsound : s.Sound) (hinside : Inside s.sizes indices) :
    s.image.Contains (s.texelIndex indices) := by
  obtain ⟨hx, hy, hz⟩ := s.image.desc.levelExtent_pos s.level
  unfold sizes at hinside
  rw [hsound.extent] at hinside
  exact ⟨hsound.level, hsound.layer, coord_lt hinside rfl hx, coord_lt hinside rfl hy,
    coord_lt hinside rfl hz⟩

/-- Bytes that decode give an answer, whatever block is remembered. -/
theorem fetch_eq_ok {offset : Nat} {bytes : Bytes}
    (hoffset : s.image.texelOffset? (s.texelIndex indices) = some offset)
    (hbytes : s.image.bytesAt? offset s.format.stride = some bytes)
    (hdecodes : s.format.Decodes bytes) (memory : BlockMemory) :
    ∃ color memory', s.fetch indices memory = .ok (color, memory') := by
  have hanswer : ∃ answer, s.fetch? memory (s.texelIndex indices) = some answer := by
    unfold Format.Decodes at hdecodes
    unfold fetch?
    simp only [hoffset, hbytes, Option.bind_eq_bind, Option.bind_some]
    cases hlayout : s.format.layout with
    | block kind =>
      rw [hlayout] at hdecodes
      obtain ⟨texels, hdecode⟩ := hdecodes
      have hblock : ∃ texels, blockTexels? memory kind offset bytes = some texels := by
        unfold blockTexels?
        rcases memory with _ | ⟨start, remembered⟩
        · exact ⟨texels, hdecode⟩
        · by_cases hstart : start = offset
          · exact ⟨remembered, if_pos hstart⟩
          · exact ⟨texels, (if_neg hstart).trans hdecode⟩
      obtain ⟨found, hfound⟩ := hblock
      simp only [hfound, Option.bind_some]
      exact ⟨_, rfl⟩
    | _ =>
      rw [hlayout] at hdecodes
      obtain ⟨color, hdecode⟩ := hdecodes
      simp only [hdecode, Option.bind_some]
      exact ⟨_, rfl⟩
  obtain ⟨answer, hfetch⟩ := hanswer
  unfold fetch
  simp only
  rw [hfetch]
  exact ⟨answer.1, answer.2, rfl⟩

/-- The bytes of a texel lie inside the storage and are a texel of the format. -/
theorem Sound.bytes (hsound : s.Sound) {t : TexelIndex} (ht : s.image.Contains t) :
    ∃ offset bytes, s.image.texelOffset? t = some offset ∧
      offset + s.format.stride ≤ s.image.data.size ∧
      s.image.bytesAt? offset s.format.stride = some bytes ∧ s.format.Decodes bytes := by
  have hend : s.image.address t + s.format.stride ≤ s.image.data.size := by
    rw [hsound.stored.size, hsound.stride]
    exact ht.address_le
  have hbytes : s.image.bytesAt? (s.image.address t) s.format.stride = some _ := if_pos hend
  exact ⟨_, _, Image.texelOffset?_eq ht, hend, hbytes,
    Format.decodes_of_length (Image.bytesAt?_length hbytes)⟩

/-- **Every fetch inside the axes goes well.** -/
theorem Sound.reads (hsound : s.Sound)
    (hinside : Inside s.sizes indices) :
    s.Reads indices := by
  have htexel := hsound.contains hinside
  obtain ⟨offset, bytes, hoffset, hend, hbytes, hdecodes⟩ := hsound.bytes htexel
  refine ⟨hinside, ?_, htexel, ⟨offset, bytes, hoffset, hend, hbytes, hdecodes⟩,
    fetch_eq_ok hoffset hbytes hdecodes⟩
  intro axis haxis
  have hlength := hinside.length_eq
  rw [s.length_sizes] at hlength
  rw [List.getElem?_eq_none (by omega)]
  rfl

end TexelSource

/-! ## Sampling -/

namespace BoundTexture

variable {d : ImageDesc} {created image : Image} {h : Handle .image} {vd : ViewDesc} {view : View}
  {level layer room : Nat}

/-- A layer of a level, read in the format of the view. -/
def source (b : BoundTexture) (level layer : Nat) : TexelSource :=
  ⟨b.image, b.view.format, level, layer⟩

/-- The layer that a coordinate selects. -/
def selectedLayer (b : BoundTexture) (coord : TexCoord) : Except Fault Nat :=
  b.view.layerAt (b.image.desc.imageType.layerCoord? coord)

/-- A level is sampled by filtering the layer that is selected. -/
theorem sampleLevel_eq {b : BoundTexture} {coord : TexCoord}
    (hselected : b.selectedLayer coord = .ok layer) (level : Nat) (mode : FilterMode) :
    b.sampleLevel coord level mode =
      (filter mode b.sampler.border (b.source level layer).fetch
        (b.axes coord level) [] none).map Prod.fst := by
  have hfirst : ∀ x : Except Fault (Color × BlockMemory),
      (x >>= fun answer => pure answer.1) = x.map Prod.fst := by
    intro x
    cases x <;> rfl
  unfold sampleLevel
  unfold selectedLayer at hselected
  rw [hselected]
  exact hfirst _

/-- A colour is one of a layer. -/
theorem selectedLayer_of_sampleLevel {b : BoundTexture} {coord : TexCoord} {mode : FilterMode}
    {color : Color} (hsample : b.sampleLevel coord level mode = .ok color) :
    ∃ layer, b.selectedLayer coord = .ok layer :=
  let ⟨layer, hselected, _⟩ := bind_eq_ok.mp hsample
  ⟨layer, hselected⟩

/-- The axes have the sizes of the level. -/
theorem sizes_axes (b : BoundTexture) (coord : TexCoord) (hlevel : level < b.image.desc.levels)
    (hsigned : b.image.desc.SignedAt level) (layer : Nat) :
    AxisCoord.sizes (b.axes coord level) = (b.source level layer).sizes := by
  obtain ⟨hx, hy, hz⟩ := hsigned
  have hextent : b.image.extent level = b.image.desc.levelExtent level := if_pos hlevel
  obtain ⟨u, v, w, hcoord⟩ : ∃ u v w, coord.toList = [u, v, w] :=
    List.length_eq_three.mp coord.length_toList
  unfold AxisCoord.sizes axes source TexelSource.sizes
  rw [hcoord, hextent, List.map_take]
  simp only [Sampler.addressModes, List.zip_cons_cons, List.zip_nil_right, List.map_cons,
    List.map_nil, AxisCoord.size_ofCoord hx, AxisCoord.size_ofCoord hy, AxisCoord.size_ofCoord hz]

/-- A view of a created image makes sound sources, whatever has been written to
the image since. -/
theorem sound_source (hcreate : Image.create room d = .ok created)
    (hview : View.create h created vd = .ok view) (hframe : image.frame = created.frame)
    (hlevel : level < d.levels) (hlayer : layer < d.layers) (sampler : Sampler) :
    (source ⟨image, view, sampler⟩ level layer).Sound := by
  obtain ⟨rfl, hstored⟩ := Image.create_eq_ok hcreate
  obtain ⟨-, hof⟩ := View.create_eq_ok hview
  have hdesc : image.desc = created.desc := congrArg Prod.fst hframe
  refine ⟨hstored.of_frame hframe, ?_, ?_, ?_⟩
  · exact hdesc ▸ hlevel
  · exact hdesc ▸ hlayer
  · exact hdesc ▸ hof.stride

/-- **Every fetch of every filter goes well.**  On every layer of every level,
filtering at any coordinate in any mode gives a colour, and reads only what
`TexelSource.Reads` says; sampling gives the colour of the layer it selects. -/
theorem sampleLevel_reads (hcreate : Image.create room d = .ok created) (hsigned : d.Signed32)
    (hview : View.create h created vd = .ok view)
    (hframe : image.frame = created.frame) (hlevel : level < d.levels) (hlayer : layer < d.layers)
    (sampler : Sampler) (coord : TexCoord) (mode : FilterMode) :
    let b : BoundTexture := ⟨image, view, sampler⟩
    let s := b.source level layer
    ∃ color log memory,
      filter mode sampler.border (noted s.fetch) (b.axes coord level) [] ([], none)
          = .ok (color, log, memory) ∧
        filter mode sampler.border s.fetch (b.axes coord level) [] none = .ok (color, memory) ∧
        (∀ indices ∈ log, s.Reads indices) ∧
        (b.selectedLayer coord = .ok layer → b.sampleLevel coord level mode = .ok color) := by
  intro b s
  have hsound : s.Sound := sound_source hcreate hview hframe hlevel hlayer sampler
  have hdesc : image.desc = d :=
    (congrArg Prod.fst hframe).trans (Image.create_eq_ok hcreate).1
  have hsizes : AxisCoord.sizes (b.axes coord level) = s.sizes :=
    b.sizes_axes coord hsound.level (hdesc.symm ▸ hsigned.signedAt level) layer
  have hpos : ∀ size ∈ AxisCoord.sizes (b.axes coord level), 0 < size := by
    rw [hsizes]
    exact hsound.sizes_pos
  have hfetch : ∀ indices, Inside (AxisCoord.sizes (b.axes coord level)) indices →
      ∀ memory, ∃ color memory', s.fetch indices memory = .ok (color, memory') := by
    intro indices hinside
    rw [hsizes] at hinside
    exact (hsound.reads hinside).answer
  obtain ⟨color, log, memory, hnoted, hplain, hlog⟩ := filter_noted hpos hfetch none
  refine ⟨color, log, memory, hnoted, hplain, ?_, ?_⟩
  · intro indices hmem
    apply hsound.reads
    rw [← hsizes]
    exact hlog indices hmem
  · intro hselected
    rw [sampleLevel_eq hselected]
    exact congrArg (Except.map Prod.fst) hplain

/-- Two levels of blocks, the second a part of a block. -/
def blockLevels : ImageDesc := (ImageDesc.d2 .bc1RgbUnorm 5 4).withLevels 2

/-- Colour blocks read as channel blocks, at a position that is no number on one
axis and infinite on the other. -/
theorem sampleLevel_reads_blockLevels : ∃ image view color,
    Image.create 24 blockLevels = .ok image ∧
      View.create Handle.null image { (default : ViewDesc) with format := some .bc4Snorm }
        = .ok view ∧
      BoundTexture.sampleLevel ⟨image, view, Sampler.linear.withAddressMode .mirroredRepeat⟩
        #v[⟨0x7fc00000⟩, ⟨0xff800000⟩, ⟨0x7f7fffff⟩] 1 .cubic = .ok color := by
  let image : Image := ⟨blockLevels, Array.replicate blockLevels.byteSize 0⟩
  let view : View := ⟨Handle.null, .bc4Snorm, 0, 2, 0, 1, Swizzle.identity⟩
  have hcreate : Image.create 24 blockLevels = .ok image := rfl
  have hview : View.create Handle.null image { (default : ViewDesc) with format := some .bc4Snorm }
      = .ok view := rfl
  have hsigned : blockLevels.Signed32 := ⟨by decide, by decide, by decide⟩
  have hlevel : 1 < blockLevels.levels := by decide
  have hlayer : 0 < blockLevels.layers := by decide
  obtain ⟨color, -, -, -, -, -, hsample⟩ := sampleLevel_reads hcreate hsigned hview rfl
    hlevel hlayer (Sampler.linear.withAddressMode .mirroredRepeat)
    #v[⟨0x7fc00000⟩, ⟨0xff800000⟩, ⟨0x7f7fffff⟩] .cubic
  exact ⟨image, view, color, hcreate, hview, hsample rfl⟩

end BoundTexture

end PixelPipeline
