import PixelPipeline.Proofs.Image.Texels
import PixelPipeline.Proofs.Image.Tiling

/-!
# An image holds what its texels hold

The storage units of the texels are all the bytes there are, so two images of one
frame whose texels hold the same are the same image.
-/

namespace PixelPipeline.Image

variable {i i' : Image} {t : TexelIndex}

/-- The bytes of a texel stand in its storage unit. -/
theorem Stored.getElem?_texel? (hstored : i.Stored) (ht : i.Contains t) {k : Nat}
    (hk : k < i.desc.format.stride) :
    (i.texel? t >>= fun bytes => bytes[k]?) = i.data[i.address t + k]? := by
  have hle := ht.address_le
  have hsize := hstored.size
  have hend : i.address t + i.desc.format.stride ≤ i.data.size := by omega
  unfold Image.texel? bytesAt?
  rw [texelOffset?_eq ht]
  simp only [Option.bind_eq_bind, Option.bind_some]
  rw [if_pos hend, Option.bind_some, getElem?_extract _ _ _ _ hend, if_pos hk]

/-- The address of a texel depends on the description alone. -/
theorem address_congr (hdesc : i'.desc = i.desc) (t : TexelIndex) :
    i'.address t = i.address t := by
  unfold address unit
  rw [hdesc]

/-- Which texels there are depends on the description only. -/
theorem Contains.congr (hdesc : i'.desc = i.desc) (ht : i.Contains t) : i'.Contains t := by
  obtain ⟨hlevel, hlayer, hx, hy, hz⟩ := ht
  exact ⟨hdesc ▸ hlevel, hdesc ▸ hlayer, hdesc ▸ hx, hdesc ▸ hy, hdesc ▸ hz⟩

/-- Bytes differ only where texels differ. -/
theorem Stored.exists_texel_ne (hstored : i.Stored) (hframe : i'.frame = i.frame) {k : Nat}
    (hne : i'.data[k]? ≠ i.data[k]?) :
    ∃ t, i.Contains t ∧ i.address t ≤ k ∧ k < i.address t + i.desc.format.stride ∧
      i'.texel? t ≠ i.texel? t := by
  have hdesc : i'.desc = i.desc := congrArg Prod.fst hframe
  have hsize : i'.data.size = i.data.size := congrArg Prod.snd hframe
  have hk : k < i.data.size := by
    refine Nat.lt_of_not_le fun hle => hne ?_
    rw [Array.getElem?_eq_none (hsize ▸ hle), Array.getElem?_eq_none hle]
  obtain ⟨t, ht, hstart, hend⟩ := exists_address (hstored.size ▸ hk)
  refine ⟨t, ht, hstart, hend, fun htexel => hne ?_⟩
  obtain ⟨j, rfl⟩ := Nat.exists_eq_add_of_le hstart
  have hj : j < i.desc.format.stride := by omega
  have hother := (hstored.of_frame hframe).getElem?_texel?
    (ht.congr hdesc) (hdesc ▸ hj)
  rw [← hstored.getElem?_texel? ht hj, ← htexel, hother, address_congr hdesc]

/-- **An image holds what its texels hold.** -/
theorem Stored.eq_of_texels (hstored : i.Stored) (hframe : i'.frame = i.frame)
    (htexels : ∀ t, i'.texel? t = i.texel? t) : i' = i := by
  have hdata : i'.data = i.data := by
    apply Array.ext_getElem?
    intro k
    by_cases hsame : i'.data[k]? = i.data[k]?
    · exact hsame
    · obtain ⟨t, -, -, -, hne⟩ := hstored.exists_texel_ne hframe hsame
      exact (hne (htexels t)).elim
  have hdesc : i'.desc = i.desc := congrArg Prod.fst hframe
  obtain ⟨desc, data⟩ := i
  obtain ⟨desc', data'⟩ := i'
  obtain rfl : desc' = desc := hdesc
  obtain rfl : data' = data := hdata
  rfl

end PixelPipeline.Image
