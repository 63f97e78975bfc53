import PixelPipeline.Proofs.Image.Addressing

/-!
# Reading and replacing texels

Writing bytes changes those bytes and nothing else, and never the size of the
data.  With the addresses of texels this gives `texel?_setTexel`: replacing a
texel of an image without blocks replaces that texel only.
-/

namespace PixelPipeline.Image

variable {i : Image} {t t' : TexelIndex} {data : Array UInt8} {bytes : Bytes} {offset count : Nat}

/-! ## Bytes -/

/-- Writing keeps the size of the data. -/
theorem size_writeFrom (data : Array UInt8) (offset : Nat) (bytes : Bytes) :
    (writeFrom data offset bytes).size = data.size := by
  induction bytes generalizing data offset with
  | nil => rfl
  | cons b rest ih =>
    unfold writeFrom
    rw [ih, Array.size_setIfInBounds]

/-- Written bytes stand in their range, as far as the data reaches. -/
theorem getElem?_writeFrom (data : Array UInt8) (offset : Nat) (bytes : Bytes) (k : Nat) :
    (writeFrom data offset bytes)[k]?
      = if offset ≤ k ∧ k < offset + bytes.length ∧ k < data.size then bytes[k - offset]?
        else data[k]? := by
  induction bytes generalizing data offset with
  | nil =>
    rw [if_neg (by simp only [List.length_nil]; omega)]
    rfl
  | cons b rest ih =>
    unfold writeFrom
    rw [ih, Array.size_setIfInBounds, Array.getElem?_setIfInBounds, List.length_cons]
    by_cases hk : offset = k
    · subst hk
      rw [if_neg (by omega), if_pos rfl]
      by_cases hlt : offset < data.size
      · rw [if_pos hlt, if_pos (by omega), Nat.sub_self]
        rfl
      · rw [if_neg hlt, if_neg (by omega)]
        exact (Array.getElem?_eq_none (by omega)).symm
    · rw [if_neg hk]
      by_cases hin : offset + 1 ≤ k ∧ k < offset + 1 + rest.length ∧ k < data.size
      · have hnext : k - offset = k - (offset + 1) + 1 := by omega
        rw [if_pos hin, if_pos (by omega), hnext, List.getElem?_cons_succ]
      · rw [if_neg hin, if_neg (by omega)]

/-- Repeating keeps the size of the data. -/
theorem size_repeatFrom (data : Array UInt8) (texel : Bytes) (offset count : Nat) :
    (repeatFrom data texel offset count).size = data.size := by
  induction count generalizing data offset with
  | zero => rfl
  | succ count ih =>
    unfold repeatFrom
    rw [ih, size_writeFrom]

/-- A byte of a range that is read. -/
theorem getElem?_extract (data : Array UInt8) (offset count k : Nat)
    (hle : offset + count ≤ data.size) :
    (data.extract offset (offset + count)).toList[k]?
      = if k < count then data[offset + k]? else none := by
  rw [Array.getElem?_toList, Array.getElem?_extract]
  have hmin : min (offset + count) data.size - offset = count := by omega
  rw [hmin]

/-- As many bytes are read as were asked for. -/
theorem bytesAt?_length (hbytes : i.bytesAt? offset count = some bytes) :
    bytes.length = count := by
  unfold bytesAt? at hbytes
  by_cases hle : offset + count ≤ i.data.size
  · rw [if_pos hle] at hbytes
    rw [← Option.some.inj hbytes, Array.length_toList, Array.size_extract]
    omega
  · rw [if_neg hle] at hbytes
    cases hbytes

/-- Bytes read where they were written. -/
theorem bytesAt?_writeAt_self (hle : offset + bytes.length ≤ i.data.size) :
    (i.writeAt offset bytes).bytesAt? offset bytes.length = some bytes := by
  have hsize : (i.writeAt offset bytes).data.size = i.data.size := size_writeFrom ..
  unfold bytesAt?
  rw [if_pos (by rw [hsize]; exact hle)]
  congr 1
  apply List.ext_getElem?
  intro k
  rw [getElem?_extract _ _ _ _ (by rw [hsize]; exact hle)]
  by_cases hk : k < bytes.length
  · unfold writeAt
    rw [if_pos hk, getElem?_writeFrom, if_pos (by omega), Nat.add_sub_cancel_left]
  · rw [if_neg hk]
    exact (List.getElem?_eq_none (by omega)).symm

/-- Bytes read away from where others were written. -/
theorem bytesAt?_writeAt_separate {offset' : Nat}
    (hseparate : offset' + count ≤ offset ∨ offset + bytes.length ≤ offset') :
    (i.writeAt offset bytes).bytesAt? offset' count = i.bytesAt? offset' count := by
  have hsize : (i.writeAt offset bytes).data.size = i.data.size := size_writeFrom ..
  unfold bytesAt?
  rw [hsize]
  by_cases hle : offset' + count ≤ i.data.size
  · rw [if_pos hle, if_pos hle]
    congr 1
    apply List.ext_getElem?
    intro k
    rw [getElem?_extract _ _ _ _ (by rw [hsize]; exact hle), getElem?_extract _ _ _ _ hle]
    by_cases hk : k < count
    · unfold writeAt
      rw [if_pos hk, if_pos hk, getElem?_writeFrom, if_neg (by omega)]
    · rw [if_neg hk, if_neg hk]
  · rw [if_neg hle, if_neg hle]

/-! ## The frame of an image -/

/-- Everything about an image but the bytes: its description, and how many bytes
there are. -/
def frame (i : Image) : ImageDesc × Nat := (i.desc, i.data.size)

/-- Writing changes nothing but bytes. -/
theorem frame_writeAt (i : Image) (offset : Nat) (bytes : Bytes) :
    (i.writeAt offset bytes).frame = i.frame :=
  congrArg (Prod.mk i.desc) (size_writeFrom ..)

/-- Setting a texel changes nothing but bytes. -/
theorem frame_setTexel (i : Image) (t : TexelIndex) (bytes : Bytes) :
    (i.setTexel t bytes).frame = i.frame := by
  unfold setTexel
  cases i.texelOffset? t with
  | none => rfl
  | some offset => exact frame_writeAt ..

/-- Filling changes nothing but bytes. -/
theorem frame_fill (i : Image) (level layer : Nat) (texel : Bytes) :
    (i.fill level layer texel).frame = i.frame := by
  unfold fill
  cases i.layerRange? level layer with
  | none => rfl
  | some range => exact congrArg (Prod.mk i.desc) (size_repeatFrom ..)

/-- An upload changes nothing but bytes. -/
theorem frame_upload {i' : Image} {level layer : Nat}
    (hupload : i.upload level layer bytes = .ok i') : i'.frame = i.frame := by
  unfold upload at hupload
  cases hrange : i.layerRange? level layer with
  | none =>
    rw [hrange] at hupload
    cases hupload
  | some range =>
    rw [hrange] at hupload
    simp only at hupload
    by_cases hlength : bytes.length = range.2
    · rw [if_pos hlength] at hupload
      obtain rfl := Except.ok.inj hupload
      exact frame_writeAt ..
    · rw [if_neg hlength] at hupload
      cases hupload

/-- Being stored depends on the frame alone. -/
theorem Stored.of_frame {i' : Image} (hstored : i.Stored) (hframe : i'.frame = i.frame) :
    i'.Stored := by
  have hdesc : i'.desc = i.desc := congrArg Prod.fst hframe
  have hsize : i'.data.size = i.data.size := congrArg Prod.snd hframe
  constructor
  · rw [hdesc]
    exact hstored.flaw
  · rw [hdesc, hsize]
    exact hstored.size
  · rw [hdesc]
    exact hstored.fits

/-! ## Texels -/

/-- Every texel of an image has the bytes of one storage unit. -/
theorem Stored.texel? (hstored : i.Stored) (ht : i.Contains t) :
    ∃ bytes, i.texel? t = some bytes ∧ bytes.length = i.desc.format.stride := by
  have hle := ht.address_le
  have hsize := hstored.size
  unfold Image.texel?
  rw [texelOffset?_eq ht]
  simp only [Option.bind_eq_bind, Option.bind_some]
  have hbytes : i.bytesAt? (i.address t) i.desc.format.stride
      = some (i.data.extract (i.address t) (i.address t + i.desc.format.stride)).toList := by
    unfold bytesAt?
    rw [if_pos (by omega)]
  exact ⟨_, hbytes, bytesAt?_length hbytes⟩

/-- There is no texel outside the image. -/
theorem texel?_eq_none (ht : ¬ i.Contains t) : i.texel? t = none := by
  unfold texel?
  rw [texelOffset?_eq_none ht]
  rfl

/-- Replacing a texel replaces that texel only. -/
theorem Stored.texel?_setTexel (hstored : i.Stored)
    (hplain : i.desc.format.isCompressed = false) (ht : i.Contains t)
    (hlength : bytes.length = i.desc.format.stride) (t' : TexelIndex) :
    (i.setTexel t bytes).texel? t' = if t' = t then some bytes else i.texel? t' := by
  have hsize := hstored.size
  have hset : i.setTexel t bytes = i.writeAt (i.address t) bytes := by
    unfold setTexel
    rw [texelOffset?_eq ht]
  -- the offsets of texels depend on the description, which does not change
  have hread : ∀ t', (i.writeAt (i.address t) bytes).texel? t'
      = i.texelOffset? t' >>= fun offset =>
          (i.writeAt (i.address t) bytes).bytesAt? offset i.desc.format.stride := fun _ => rfl
  rw [hset, hread]
  by_cases ht' : i.Contains t'
  · unfold Image.texel?
    rw [texelOffset?_eq ht']
    simp only [Option.bind_eq_bind, Option.bind_some]
    by_cases heq : t' = t
    · have hle := ht.address_le
      rw [if_pos heq, heq, ← hlength]
      exact bytesAt?_writeAt_self (by omega)
    · have hunit : ¬ i.SameUnit t' t := fun hunit => heq (hunit.eq hplain)
      have hseparate := address_separate ht' ht hunit
      rw [if_neg heq]
      exact bytesAt?_writeAt_separate (by omega)
  · have hne : t' ≠ t := by
      intro heq
      exact ht' (heq ▸ ht)
    rw [if_neg hne, texel?_eq_none ht', texelOffset?_eq_none ht']
    rfl

end PixelPipeline.Image
