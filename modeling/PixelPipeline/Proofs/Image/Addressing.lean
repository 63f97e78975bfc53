import PixelPipeline.Image.Storage

/-!
# Where texels lie

Every texel of an image has a storage unit of its own inside the data:

* `texelOffset?_eq` — a texel of the image starts at its address, and nothing else
  has an offset;
* `Contains.address_le` — its unit ends inside the data;
* `address_separate` — units that are not the same do not overlap.

The bytes of a stored image can be counted in a 64-bit word, and so every number on
the way to an offset is a word (`Stored.offset_lt`).
-/

namespace PixelPipeline

/-! ## Sizes -/

namespace ImageDesc

variable {d : ImageDesc} {level layer : Nat}

/-- A level starts behind the levels before it. -/
theorem levelStart_mono (d : ImageDesc) {m n : Nat} (hle : m ≤ n) :
    d.levelStart m ≤ d.levelStart n := by
  induction hle with
  | refl => exact Nat.le_refl _
  | step _ ih => exact Nat.le_trans ih (Nat.le_add_right _ _)

/-- A layer of an image ends before the next level starts. -/
theorem layerEnd_le (d : ImageDesc) (level : Nat) (hlayer : layer < d.layers) :
    d.levelStart level + d.layerSize level * layer + d.layerSize level
      ≤ d.levelStart (level + 1) := by
  have hsucc : d.layerSize level * (layer + 1) ≤ d.layerSize level * d.layers :=
    Nat.mul_le_mul_left _ hlayer
  rw [Nat.mul_succ] at hsucc
  change _ ≤ d.levelStart level + d.layerSize level * d.layers
  omega

/-- An accepted description has at least one layer. -/
theorem layers_pos (hflaw : d.flaw? = none) : 0 < d.layers := by
  have hlayers : d.layers ≠ 0 := by
    intro hzero
    unfold flaw? at hflaw
    simp only [hzero, true_or, if_true] at hflaw
    split at hflaw
    · cases hflaw
    · split at hflaw
      · cases hflaw
      · cases hflaw
  exact Nat.pos_of_ne_zero hlayers

end ImageDesc

/-! ## Storage units of a layer -/

namespace Format

variable {f : Format} {size n m : Nat}

/-- A block has an extent. -/
theorem blockExtent_pos (f : Format) : 0 < f.blockExtent := by
  unfold blockExtent
  split <;> decide

/-- The block of a texel is one of the blocks across. -/
theorem div_lt_blocksAcross (hn : n < size) : n / f.blockExtent < f.blocksAcross size := by
  unfold blocksAcross
  rw [Nat.lt_iff_add_one_le, Nat.le_div_iff_mul_le f.blockExtent_pos, Nat.add_mul, Nat.one_mul]
  have hle := Nat.div_mul_le_self n f.blockExtent
  have hpos := f.blockExtent_pos
  omega

/-- Without compression a block is a texel. -/
theorem blockExtent_eq_one (hplain : f.isCompressed = false) : f.blockExtent = 1 := by
  unfold blockExtent
  rw [hplain]
  rfl

end Format

/-- Two digits of a number are determined by it. -/
theorem digits_inj {base q r q' r' : Nat} (hr : r < base) (hr' : r' < base)
    (heq : q * base + r = q' * base + r') : q = q' ∧ r = r' := by
  have hbase : 0 < base := Nat.lt_of_le_of_lt (Nat.zero_le r) hr
  have hdiv := congrArg (· / base) heq
  have hmod := congrArg (· % base) heq
  simp only [Nat.mul_comm _ base, Nat.mul_add_div hbase, Nat.mul_add_mod, Nat.div_eq_of_lt hr,
    Nat.div_eq_of_lt hr', Nat.mod_eq_of_lt hr, Nat.mod_eq_of_lt hr', Nat.add_zero] at hdiv hmod
  exact ⟨hdiv, hmod⟩

/-- A number with a digit below the base is below the next multiple. -/
theorem digits_lt {base count q r : Nat} (hq : q < count) (hr : r < base) :
    q * base + r < count * base := by
  have hle : (q + 1) * base ≤ count * base := Nat.mul_le_mul_right base hq
  rw [Nat.add_mul, Nat.one_mul] at hle
  omega

namespace Image

variable {f : Format} {e : Extent} {x y z x' y' z' : Nat}

/-- Units count up to the number of units that cover the extent. -/
theorem unitIndex_lt (hx : x < e.x) (hy : y < e.y) (hz : z < e.z) :
    unitIndex f e x y z < f.blocksAcross e.x * f.blocksAcross e.y * e.z := by
  have hrow := digits_lt hz (Format.div_lt_blocksAcross (f := f) hy)
  have hunit := digits_lt hrow (Format.div_lt_blocksAcross (f := f) hx)
  unfold unitIndex
  calc _ < e.z * f.blocksAcross e.y * f.blocksAcross e.x := hunit
    _ = f.blocksAcross e.x * f.blocksAcross e.y * e.z := by
      rw [Nat.mul_comm (e.z * _), Nat.mul_comm e.z, ← Nat.mul_assoc]

/-- Equal units are units of the same slice, block row and block column. -/
theorem unitIndex_inj (hx : x < e.x) (hy : y < e.y) (hx' : x' < e.x) (hy' : y' < e.y)
    (heq : unitIndex f e x y z = unitIndex f e x' y' z') :
    z = z' ∧ y / f.blockExtent = y' / f.blockExtent ∧ x / f.blockExtent = x' / f.blockExtent := by
  unfold unitIndex at heq
  obtain ⟨hrows, hcolumn⟩ :=
    digits_inj (Format.div_lt_blocksAcross hx) (Format.div_lt_blocksAcross hx') heq
  obtain ⟨hslice, hrow⟩ :=
    digits_inj (Format.div_lt_blocksAcross hy) (Format.div_lt_blocksAcross hy') hrows
  exact ⟨hslice, hrow, hcolumn⟩

/-! ## Addresses -/

variable {i : Image} {t t' : TexelIndex}

/-- The data has the size of the description, the size is a word, and the description is
one that images can have. -/
structure Stored (i : Image) : Prop where
  flaw : i.desc.flaw? = none
  size : i.data.size = i.desc.byteSize
  fits : i.desc.byteSize < 2 ^ 64

/-- The texel exists. -/
structure Contains (i : Image) (t : TexelIndex) : Prop where
  level : t.level < i.desc.levels
  layer : t.layer < i.desc.layers
  x : t.x < (i.desc.levelExtent t.level).x
  y : t.y < (i.desc.levelExtent t.level).y
  z : t.z < (i.desc.levelExtent t.level).z

/-- The storage unit of a texel in its layer. -/
def unit (i : Image) (t : TexelIndex) : Nat :=
  unitIndex i.desc.format (i.desc.levelExtent t.level) t.x t.y t.z

/-- Where the storage unit of a texel starts. -/
def address (i : Image) (t : TexelIndex) : Nat :=
  i.desc.levelStart t.level + i.desc.layerSize t.level * t.layer
    + i.unit t * i.desc.format.stride

/-- Two texels share a storage unit. -/
def SameUnit (i : Image) (t t' : TexelIndex) : Prop :=
  t.level = t'.level ∧ t.layer = t'.layer ∧ t.z = t'.z ∧
    t.y / i.desc.format.blockExtent = t'.y / i.desc.format.blockExtent ∧
    t.x / i.desc.format.blockExtent = t'.x / i.desc.format.blockExtent

/-- The unit of a texel ends inside its layer. -/
theorem Contains.unit_le (ht : i.Contains t) :
    i.unit t * i.desc.format.stride + i.desc.format.stride ≤ i.desc.layerSize t.level := by
  have hlt : i.unit t < _ := unitIndex_lt ht.x ht.y ht.z
  have hle := Nat.mul_le_mul_right i.desc.format.stride hlt
  rw [Nat.succ_mul] at hle
  exact hle

/-- The unit of a texel ends before the next level. -/
theorem Contains.address_le_next (ht : i.Contains t) :
    i.address t + i.desc.format.stride ≤ i.desc.levelStart (t.level + 1) := by
  have hunit := ht.unit_le
  have hlayer := i.desc.layerEnd_le t.level ht.layer
  unfold address
  omega

/-- The unit of a texel ends inside the image. -/
theorem Contains.address_le (ht : i.Contains t) :
    i.address t + i.desc.format.stride ≤ i.desc.byteSize :=
  Nat.le_trans ht.address_le_next (i.desc.levelStart_mono ht.level)

/-- Units that are not the same do not overlap. -/
theorem address_separate (ht : i.Contains t) (ht' : i.Contains t') (hunit : ¬ i.SameUnit t t') :
    i.address t + i.desc.format.stride ≤ i.address t' ∨
      i.address t' + i.desc.format.stride ≤ i.address t := by
  -- the first difference, from the level down, separates the two
  have hlevels : ∀ {t t' : TexelIndex}, i.Contains t → t.level < t'.level →
      i.address t + i.desc.format.stride ≤ i.address t' := by
    intro t t' ht hlt
    have hnext := ht.address_le_next
    have hmono : i.desc.levelStart (t.level + 1) ≤ i.desc.levelStart t'.level :=
      i.desc.levelStart_mono hlt
    unfold address at hnext ⊢
    omega
  have hlayers : ∀ {t t' : TexelIndex}, i.Contains t → t.level = t'.level → t.layer < t'.layer →
      i.address t + i.desc.format.stride ≤ i.address t' := by
    intro t t' ht hlevel hlt
    have hend := ht.unit_le
    have hle := Nat.mul_le_mul_left (i.desc.layerSize t.level) hlt
    rw [Nat.mul_succ] at hle
    unfold address
    rw [← hlevel]
    omega
  have hunits : ∀ {t t' : TexelIndex}, t.level = t'.level → t.layer = t'.layer →
      i.unit t < i.unit t' → i.address t + i.desc.format.stride ≤ i.address t' := by
    intro t t' hlevel hlayer hlt
    have hle := Nat.mul_le_mul_right i.desc.format.stride hlt
    rw [Nat.succ_mul] at hle
    unfold address
    rw [← hlevel, ← hlayer]
    omega
  rcases Nat.lt_trichotomy t.level t'.level with hlt | hlevel | hgt
  · exact .inl (hlevels ht hlt)
  · rcases Nat.lt_trichotomy t.layer t'.layer with hlt | hlayer | hgt
    · exact .inl (hlayers ht hlevel hlt)
    · rcases Nat.lt_trichotomy (i.unit t) (i.unit t') with hlt | hsame | hgt
      · exact .inl (hunits hlevel hlayer hlt)
      · have hx' := ht'.x
        have hy' := ht'.y
        unfold unit at hsame
        rw [← hlevel] at hx' hy' hsame
        have hplace := unitIndex_inj ht.x ht.y hx' hy' hsame
        exact (hunit ⟨hlevel, hlayer, hplace⟩).elim
      · exact .inr (hunits hlevel.symm hlayer.symm hgt)
    · exact .inr (hlayers ht' hlevel.symm hgt)
  · exact .inr (hlevels ht' hgt)

/-- A texel of the image starts at its address. -/
theorem texelOffset?_eq (ht : i.Contains t) : i.texelOffset? t = some (i.address t) := by
  have hrange : t.layer < i.desc.layers ∧ t.level < i.desc.levels := ⟨ht.layer, ht.level⟩
  unfold texelOffset? layerRange? extent
  rw [if_pos hrange, if_pos ht.level]
  simp only [Option.bind_eq_bind, Option.bind_some]
  rw [if_pos ⟨ht.x, ht.y, ht.z⟩]
  rfl

/-- What is not a texel of the image has no offset. -/
theorem texelOffset?_eq_none (ht : ¬ i.Contains t) : i.texelOffset? t = none := by
  unfold texelOffset? layerRange? extent
  by_cases hrange : t.layer < i.desc.layers ∧ t.level < i.desc.levels
  · rw [if_pos hrange, if_pos hrange.2]
    simp only [Option.bind_eq_bind, Option.bind_some]
    apply if_neg
    intro hinside
    exact ht ⟨hrange.2, hrange.1, hinside.1, hinside.2.1, hinside.2.2⟩
  · rw [if_neg hrange]
    rfl

/-- Offsets are the addresses of the texels that exist. -/
theorem texelOffset?_eq_some_iff {offset : Nat} :
    i.texelOffset? t = some offset ↔ i.Contains t ∧ offset = i.address t := by
  by_cases ht : i.Contains t
  · rw [texelOffset?_eq ht]
    simp [ht, eq_comm]
  · rw [texelOffset?_eq_none ht]
    simp [ht]

/-- **Offsets are words**, and so is where a storage unit ends: nothing that is added up on
the way to a texel leaves the word. -/
theorem Stored.offset_lt (hstored : i.Stored) {offset : Nat}
    (hoffset : i.texelOffset? t = some offset) :
    offset + i.desc.format.stride < 2 ^ 64 := by
  obtain ⟨ht, rfl⟩ := texelOffset?_eq_some_iff.mp hoffset
  exact Nat.lt_of_le_of_lt ht.address_le hstored.fits

/-- Without blocks every texel has its own unit. -/
theorem SameUnit.eq (hplain : i.desc.format.isCompressed = false) (hunit : i.SameUnit t t') :
    t = t' := by
  obtain ⟨hlevel, hlayer, hz, hy, hx⟩ := hunit
  rw [Format.blockExtent_eq_one hplain, Nat.div_one, Nat.div_one] at hy hx
  rcases t with ⟨level, layer, x, y, z⟩
  rcases t' with ⟨level', layer', x', y', z'⟩
  simp only at hlevel hlayer hz hy hx
  subst hlevel hlayer hz hy hx
  rfl

end Image

end PixelPipeline
