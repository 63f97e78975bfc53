import PixelPipeline.Proofs.Image.Channels
import PixelPipeline.Proofs.Image.Contents

/-!
# Filling a layer

A colour that is written with all its channels leaves nothing of what the texel
held (`encode_all`): the channels are all the parts that a colour target has, and
each of them comes from the colour alone.  So a texel can be made once, from zeros,
and copied.

Filling copies it to every storage unit of a layer.  The units of a layer lie one
behind the other without a gap, those of all its slices, and no other unit is
touched (`Stored.texel?_fill`).
-/

namespace PixelPipeline

/-! ## Colours that replace a texel -/

namespace Format

variable {f : Format} {bytes old : Bytes}

/-- The full mask selects every channel. -/
theorem channels_all (i : Fin 4) : ColorMask.all.channels.get i = true := by
  revert i
  decide

/-- **A colour with all its channels replaces the texel.** -/
theorem encode_all (hrenderable : f.isColorRenderable = true) (hlength : bytes.length = f.stride)
    (hlength' : old.length = f.stride) (color : Color) :
    f.encode color .all old = f.encode color .all bytes := by
  obtain ⟨new, hencode, hnew⟩ := encode_eq_ok hrenderable hlength color .all
  obtain ⟨new', hencode', hnew'⟩ := encode_eq_ok hrenderable hlength' color .all
  rw [hencode, hencode']
  refine congrArg Except.ok (eq_of_codes (isCompressed_of_isColorRenderable hrenderable)
    (hnew.trans hlength) (hnew'.trans hlength') fun p => ?_)
  rw [code?_encode hencode, code?_encode hencode']
  unfold code?
  cases hfield : f.field? p with
  | none => rfl
  | some g =>
    obtain ⟨i, rfl⟩ := exists_channel hrenderable hfield
    simp only [Option.map_some, codeAfter_of_selected (channels_all i)]

end Format

/-! ## Copies of a texel -/

namespace Image

variable {i : Image} {t : TexelIndex} {texel : Bytes} {start count level layer : Nat}

/-- The image with copies of a texel from a position on. -/
def repeatAt (i : Image) (texel : Bytes) (start count : Nat) : Image :=
  { i with data := repeatFrom i.data texel start count }

/-- Repeating a texel writes it once and repeats it from behind. -/
theorem repeatAt_succ (i : Image) (texel : Bytes) (start count : Nat) :
    i.repeatAt texel start (count + 1)
      = (i.writeAt start texel).repeatAt texel (start + texel.length) count := rfl

/-- Bytes away from the copies stay. -/
theorem bytesAt?_repeatAt_separate {offset size : Nat}
    (hseparate : offset + size ≤ start ∨ start + count * texel.length ≤ offset) :
    (i.repeatAt texel start count).bytesAt? offset size = i.bytesAt? offset size := by
  induction count generalizing i start with
  | zero => rfl
  | succ count ih =>
    rw [Nat.succ_mul] at hseparate
    rw [repeatAt_succ, ih (by omega), bytesAt?_writeAt_separate (by omega)]

/-- Every copy is the texel. -/
theorem bytesAt?_repeatAt {k : Nat} (hk : k < count)
    (hle : start + count * texel.length ≤ i.data.size) :
    (i.repeatAt texel start count).bytesAt? (start + k * texel.length) texel.length
      = some texel := by
  induction count generalizing i start k with
  | zero => exact (Nat.not_lt_zero k hk).elim
  | succ count ih =>
    rw [Nat.succ_mul] at hle
    have hsize : (i.writeAt start texel).data.size = i.data.size := size_writeFrom ..
    rw [repeatAt_succ]
    cases k with
    | zero =>
      rw [Nat.zero_mul, Nat.add_zero, bytesAt?_repeatAt_separate (.inl (Nat.le_refl _))]
      exact bytesAt?_writeAt_self (by omega)
    | succ k =>
      have hnext : ((i.writeAt start texel).repeatAt texel (start + texel.length) count).bytesAt?
          (start + texel.length + k * texel.length) texel.length = some texel :=
        ih (Nat.lt_of_succ_lt_succ hk) (by omega)
      rw [Nat.succ_mul, Nat.add_comm (k * texel.length), ← Nat.add_assoc]
      exact hnext

/-- Where a layer starts. -/
def layerAddress (i : Image) (level layer : Nat) : Nat :=
  i.desc.levelStart level + i.desc.layerSize level * layer

/-- A texel of another layer lies before or behind the layer. -/
theorem Contains.layer_separate (ht : i.Contains t) (hlayer : layer < i.desc.layers)
    (hother : ¬ (t.level = level ∧ t.layer = layer)) :
    i.address t + i.desc.format.stride ≤ i.layerAddress level layer ∨
      i.layerAddress level layer + i.desc.layerSize level ≤ i.address t := by
  have hend := i.desc.layerEnd_le level hlayer
  have hunit := ht.unit_le
  have hnext := ht.address_le_next
  unfold layerAddress
  rcases Nat.lt_trichotomy t.level level with hlt | hlevel | hgt
  · have hmono : i.desc.levelStart (t.level + 1) ≤ i.desc.levelStart level :=
      i.desc.levelStart_mono hlt
    exact .inl (by omega)
  · unfold address
    rw [hlevel] at hunit ⊢
    rcases Nat.lt_trichotomy t.layer layer with hlt | hsame | hgt
    · have hle := Nat.mul_le_mul_left (i.desc.layerSize level) hlt
      rw [Nat.mul_succ] at hle
      exact .inl (by omega)
    · exact (hother ⟨hlevel, hsame⟩).elim
    · have hle := Nat.mul_le_mul_left (i.desc.layerSize level) hgt
      rw [Nat.mul_succ] at hle
      exact .inr (by omega)
  · have hmono : i.desc.levelStart (level + 1) ≤ i.desc.levelStart t.level :=
      i.desc.levelStart_mono hgt
    unfold address
    exact .inr (by omega)

/-- A layer is made of as many copies as it has storage units. -/
theorem fill_eq (hlevel : level < i.desc.levels) (hlayer : layer < i.desc.layers) :
    i.fill level layer texel = i.repeatAt texel (i.layerAddress level layer)
      (i.desc.layerSize level / texel.length) := by
  unfold fill layerRange?
  rw [if_pos ⟨hlayer, hlevel⟩]
  rfl

/-- **Filling replaces the texels of a layer**, in every slice, and no others. -/
theorem Stored.texel?_fill (hstored : i.Stored) (hlevel : level < i.desc.levels)
    (hlayer : layer < i.desc.layers)
    (hlength : texel.length = i.desc.format.stride) (ht : i.Contains t) :
    (i.fill level layer texel).texel? t
      = if t.level = level ∧ t.layer = layer then some texel else i.texel? t := by
  have hunits : i.desc.layerSize level / texel.length * texel.length
      = i.desc.layerSize level :=
    Nat.div_mul_cancel (hlength ▸ Nat.dvd_mul_left _ _)
  have hread : (i.fill level layer texel).texel? t
      = (i.fill level layer texel).bytesAt? (i.address t) i.desc.format.stride := by
    have hdesc : (i.fill level layer texel).desc = i.desc :=
      congrArg Prod.fst (i.frame_fill level layer texel)
    unfold Image.texel?
    rw [texelOffset?_eq (ht.congr hdesc), address_congr hdesc, hdesc]
    rfl
  rw [hread, fill_eq hlevel hlayer]
  by_cases hinside : t.level = level ∧ t.layer = layer
  · obtain ⟨rfl, rfl⟩ := hinside
    have hunit := ht.unit_le
    have hend := i.desc.layerEnd_le t.level hlayer
    have hmono : i.desc.levelStart (t.level + 1) ≤ i.desc.byteSize :=
      i.desc.levelStart_mono hlevel
    have hsize := hstored.size
    have hk : i.unit t < i.desc.layerSize t.level / texel.length := by
      rw [Nat.lt_iff_add_one_le, Nat.le_div_iff_mul_le (hlength ▸ i.desc.format.stride_pos),
        hlength, Nat.succ_mul]
      exact hunit
    have haddress : i.address t
        = i.layerAddress t.level t.layer + i.unit t * texel.length := by rw [hlength]; rfl
    rw [if_pos ⟨rfl, rfl⟩, haddress, ← hlength]
    refine bytesAt?_repeatAt hk ?_
    rw [hunits]
    unfold layerAddress
    omega
  · have hseparate := ht.layer_separate hlayer hinside
    rw [if_neg hinside, bytesAt?_repeatAt_separate (hunits.symm ▸ hseparate)]
    unfold Image.texel?
    rw [texelOffset?_eq ht]
    rfl

end Image

end PixelPipeline
