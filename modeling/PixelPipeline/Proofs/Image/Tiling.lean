import PixelPipeline.Proofs.Image.Creation

/-!
# Storage units tile the bytes of an image

An address is a number written in mixed radix: level, layer, slice, block row
and block column.  `Addressing` shows that different units lie apart; read the
other way, every byte has a level and a layer, and in the layer a unit
(`exists_unit`), so the units of the texels cover the data without a gap.

* `create_tiled` — the storage units of a created image tile its bytes.
-/

namespace PixelPipeline

namespace Format

variable {f : Format} {size block : Nat}

/-- A storage unit has bytes. -/
theorem stride_pos (f : Format) : 0 < f.stride := by
  cases f <;> decide

/-- The first texel of a block lies inside. -/
theorem mul_blockExtent_lt (hblock : block < f.blocksAcross size) :
    block * f.blockExtent < size := by
  unfold blocksAcross at hblock
  have hle : (block + 1) * f.blockExtent ≤ size + f.blockExtent - 1 :=
    (Nat.le_div_iff_mul_le f.blockExtent_pos).mp hblock
  have hpos := f.blockExtent_pos
  rw [Nat.add_mul, Nat.one_mul] at hle
  omega

end Format

namespace ImageDesc

/-- Every byte belongs to a level. -/
theorem exists_level (d : ImageDesc) {levels k : Nat} (hk : k < d.levelStart levels) :
    ∃ level < levels, d.levelStart level ≤ k ∧ k < d.levelStart (level + 1) := by
  induction levels with
  | zero => exact (Nat.not_lt_zero k hk).elim
  | succ levels ih =>
    by_cases hbefore : k < d.levelStart levels
    · obtain ⟨level, hlevel, hin⟩ := ih hbefore
      exact ⟨level, Nat.lt_succ_of_lt hlevel, hin⟩
    · exact ⟨levels, Nat.lt_succ_self levels, Nat.le_of_not_lt hbefore, hk⟩

end ImageDesc

namespace Image

variable {f : Format} {e : Extent} {i : Image} {t t' : TexelIndex} {offset offset' : Nat}

/-- Every unit of a layer is that of a texel. -/
theorem exists_unit {u : Nat} (hu : u < f.blocksAcross e.x * f.blocksAcross e.y * e.z) :
    ∃ x y z, x < e.x ∧ y < e.y ∧ z < e.z ∧ unitIndex f e x y z = u := by
  have hpos : 0 < f.blocksAcross e.x * f.blocksAcross e.y * e.z :=
    Nat.lt_of_le_of_lt (Nat.zero_le u) hu
  have hcolumns : 0 < f.blocksAcross e.x :=
    Nat.pos_of_mul_pos_right (Nat.pos_of_mul_pos_right hpos)
  have hrows : 0 < f.blocksAcross e.y := Nat.pos_of_mul_pos_left (Nat.pos_of_mul_pos_right hpos)
  have hcolumn := Nat.mod_lt u hcolumns
  have hrow := Nat.mod_lt (u / f.blocksAcross e.x) hrows
  have hslice : u / f.blocksAcross e.x / f.blocksAcross e.y < e.z := by
    rw [Nat.div_div_eq_div_mul]
    exact Nat.div_lt_of_lt_mul hu
  refine ⟨u % f.blocksAcross e.x * f.blockExtent,
    u / f.blocksAcross e.x % f.blocksAcross e.y * f.blockExtent,
    u / f.blocksAcross e.x / f.blocksAcross e.y, Format.mul_blockExtent_lt hcolumn,
    Format.mul_blockExtent_lt hrow, hslice, ?_⟩
  unfold unitIndex
  rw [Nat.mul_div_cancel _ f.blockExtent_pos, Nat.mul_div_cancel _ f.blockExtent_pos,
    Nat.div_add_mod', Nat.div_add_mod']

/-- Every byte belongs to the storage unit of a texel. -/
theorem exists_address {k : Nat} (hk : k < i.desc.byteSize) :
    ∃ t, i.Contains t ∧ i.address t ≤ k ∧ k < i.address t + i.desc.format.stride := by
  obtain ⟨level, hlevel, hstart, hend⟩ := i.desc.exists_level hk
  let size := i.desc.layerSize level
  have hinside : k - i.desc.levelStart level < size * i.desc.layers := by
    have hend : k < i.desc.levelStart level + size * i.desc.layers := hend
    omega
  have hsize : 0 < size := Nat.pos_of_mul_pos_right (Nat.lt_of_le_of_lt (Nat.zero_le _) hinside)
  -- the layer, and the unit in it
  let inLevel := k - i.desc.levelStart level
  have hlayer : inLevel / size < i.desc.layers := Nat.div_lt_of_lt_mul hinside
  have hstride := i.desc.format.stride_pos
  have hunit : inLevel % size / i.desc.format.stride
      < i.desc.format.blocksAcross (i.desc.levelExtent level).x
        * i.desc.format.blocksAcross (i.desc.levelExtent level).y
        * (i.desc.levelExtent level).z := by
    have hlt : inLevel % size < size := Nat.mod_lt _ hsize
    rw [Nat.div_lt_iff_lt_mul hstride]
    exact hlt
  obtain ⟨x, y, z, hx, hy, hz, hindex⟩ := exists_unit hunit
  refine ⟨⟨level, inLevel / size, x, y, z⟩, ⟨hlevel, hlayer, hx, hy, hz⟩, ?_⟩
  have hlayers := Nat.div_add_mod inLevel size
  have hunits := Nat.div_add_mod' (inLevel % size) i.desc.format.stride
  have hrest := Nat.mod_lt (inLevel % size) hstride
  have haddress : i.address ⟨level, inLevel / size, x, y, z⟩
      = i.desc.levelStart level + size * (inLevel / size)
        + inLevel % size / i.desc.format.stride * i.desc.format.stride := by
    unfold address unit
    rw [hindex]
  have hk : k = i.desc.levelStart level + inLevel := by
    change k = _ + (k - _)
    omega
  rw [haddress]
  omega

/-- Texel addressing tiles the bytes of an image. -/
structure Tiled (i : Image) : Prop where
  /-- The coordinates inside the image have an offset, and no others. -/
  offset_isSome : ∀ t, (i.texelOffset? t).isSome ↔
    t.level < i.desc.levels ∧ t.layer < i.desc.layers ∧
      t.x < (i.desc.levelExtent t.level).x ∧ t.y < (i.desc.levelExtent t.level).y ∧
      t.z < (i.desc.levelExtent t.level).z
  /-- A storage unit lies inside the data. -/
  offset_le : ∀ {t offset}, i.texelOffset? t = some offset →
    offset + i.desc.format.stride ≤ i.data.size
  /-- Texels of one storage unit, and no others, have the same offset. -/
  offset_inj : ∀ {t t' offset offset'}, i.texelOffset? t = some offset →
    i.texelOffset? t' = some offset' → (offset = offset' ↔ i.SameUnit t t')
  /-- Different storage units have no byte in common. -/
  disjoint : ∀ {t t' offset offset'}, i.texelOffset? t = some offset →
    i.texelOffset? t' = some offset' → ¬ i.SameUnit t t' →
      offset + i.desc.format.stride ≤ offset' ∨ offset' + i.desc.format.stride ≤ offset
  /-- Every byte belongs to a storage unit. -/
  covers : ∀ k < i.data.size, ∃ t offset, i.texelOffset? t = some offset ∧
    offset ≤ k ∧ k < offset + i.desc.format.stride

/-- Texels of one storage unit have one address. -/
theorem SameUnit.address_eq (hunit : i.SameUnit t t') : i.address t = i.address t' := by
  obtain ⟨hlevel, hlayer, hz, hy, hx⟩ := hunit
  unfold address unit unitIndex
  rw [hlevel, hlayer, hz, hy, hx]

/-- Every byte of a stored image is one of a texel, and of one storage unit only. -/
theorem Stored.tiled (hstored : i.Stored) : i.Tiled := by
  constructor
  · intro t
    rw [Option.isSome_iff_exists]
    simp only [texelOffset?_eq_some_iff]
    constructor
    · rintro ⟨_, ht, -⟩
      exact ⟨ht.level, ht.layer, ht.x, ht.y, ht.z⟩
    · rintro ⟨hlevel, hlayer, hx, hy, hz⟩
      exact ⟨_, ⟨hlevel, hlayer, hx, hy, hz⟩, rfl⟩
  · intro t offset hoffset
    obtain ⟨ht, rfl⟩ := texelOffset?_eq_some_iff.mp hoffset
    rw [hstored.size]
    exact ht.address_le
  · intro t t' offset offset' hoffset hoffset'
    obtain ⟨ht, rfl⟩ := texelOffset?_eq_some_iff.mp hoffset
    obtain ⟨ht', rfl⟩ := texelOffset?_eq_some_iff.mp hoffset'
    refine ⟨fun heq => ?_, SameUnit.address_eq⟩
    by_cases hunit : i.SameUnit t t'
    · exact hunit
    have hseparate := address_separate ht ht' hunit
    have hstride := i.desc.format.stride_pos
    omega
  · intro t t' offset offset' hoffset hoffset' hunit
    obtain ⟨ht, rfl⟩ := texelOffset?_eq_some_iff.mp hoffset
    obtain ⟨ht', rfl⟩ := texelOffset?_eq_some_iff.mp hoffset'
    exact address_separate ht ht' hunit
  · intro k hk
    rw [hstored.size] at hk
    obtain ⟨t, ht, hrange⟩ := exists_address hk
    exact ⟨t, i.address t, texelOffset?_eq_some_iff.mpr ⟨ht, rfl⟩, hrange⟩

/-- **The storage units of a created image tile its bytes.** -/
theorem create_tiled {room : Nat} {d : ImageDesc} (hcreate : Image.create room d = .ok i) :
    i.desc = d ∧ i.Tiled := by
  obtain ⟨rfl, hstored⟩ := create_eq_ok hcreate
  exact ⟨rfl, hstored.tiled⟩

/-- Two layers of blocks, the second level a part of a block. -/
def blockLayers : ImageDesc := ((ImageDesc.d2 .bc1RgbUnorm 5 4).withLevels 2).withLayers 2

/-- Where there is room for 48 bytes they are created and tiled. -/
theorem create_tiled_blockLayers : ∃ i, Image.create 48 blockLayers = .ok i ∧
    blockLayers.byteSize = 48 ∧ i.Tiled := by
  have hcreate : Image.create 48 blockLayers =
      .ok ⟨blockLayers, Array.replicate blockLayers.byteSize 0⟩ := rfl
  exact ⟨_, hcreate, by decide, (create_tiled hcreate).2⟩

end Image

end PixelPipeline
