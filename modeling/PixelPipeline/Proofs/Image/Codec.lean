import PixelPipeline.Image.Codec

/-!
# Texels that can be read and written

A format that fits a target can be read from, and written to, any texel of its
stride, and a write never changes how many bytes there are, nor those behind the
texel.  The formats that fit colour targets do not fit the others.
-/

namespace PixelPipeline

/-! ## Lengths -/

/-- Overwriting inside bytes keeps their number. -/
theorem Bytes.length_overwrite {bytes new : Bytes} {start : Nat}
    (hle : start + new.length ≤ bytes.length) :
    (Bytes.overwrite bytes start new).length = bytes.length := by
  unfold Bytes.overwrite
  simp only [List.length_append, List.length_take, List.length_drop]
  omega

/-- What lies behind the replaced bytes stays. -/
theorem Bytes.drop_overwrite {bytes new : Bytes} {start n : Nat} (hstart : start ≤ bytes.length)
    (hle : start + new.length ≤ n) :
    (Bytes.overwrite bytes start new).drop n = bytes.drop n := by
  have hfront : (bytes.take start ++ new).length = start + new.length := by
    rw [List.length_append, List.length_take_of_le hstart]
  unfold Bytes.overwrite
  rw [List.drop_append, List.drop_eq_nil_of_le (hfront ▸ hle), List.nil_append, List.drop_drop,
    hfront, Nat.add_sub_cancel' hle]

namespace Format

variable {f : Format} {bytes new : Bytes} {color : Color} {mask : ColorMask}

/-- Components that a plain texel has lie inside it. -/
theorem component_le (component : Component) {channels : Nat} {i : Fin 4}
    (hplace : i.val < channels) (v : Binary32) :
    i.val * component.size + (component.encode v).length ≤ component.size * channels := by
  have hend : (i.val + 1) * component.size ≤ channels * component.size :=
    Nat.mul_le_mul_right _ hplace
  rw [Nat.succ_mul, Nat.mul_comm channels] at hend
  rwa [Component.encode, Bytes.length_wordBytes]

/-- Components are replaced in place. -/
theorem encodePlain_frame {component : Component} {channels : Nat} {bgr : Bool}
    {enabled : Vector Bool 4} (hle : component.size * channels ≤ bytes.length) :
    (encodePlain component channels bgr color enabled bytes).length = bytes.length ∧
      (encodePlain component channels bgr color enabled bytes).drop (component.size * channels)
        = bytes.drop (component.size * channels) := by
  unfold encodePlain
  apply List.foldlRecOn (motive := fun new : Bytes => new.length = bytes.length ∧
    new.drop (component.size * channels) = bytes.drop (component.size * channels))
  · exact ⟨rfl, rfl⟩
  · rintro new ⟨hlength, hdrop⟩ i _
    by_cases hi : i.val < channels ∧ (reorder bgr enabled).get i = true
    · have hend := component_le component hi.1 ((reorder bgr color).get i)
      have hinside := hlength ▸ Nat.le_trans hend hle
      rw [if_pos hi, Bytes.length_overwrite hinside,
        Bytes.drop_overwrite (Nat.le_trans (Nat.le_add_right _ _) hinside) hend]
      exact ⟨hlength, hdrop⟩
    · rw [if_neg hi]
      exact ⟨hlength, hdrop⟩

/-! ## Formats of targets -/

/-- Formats that fit colour targets are not compressed. -/
theorem isCompressed_of_isColorRenderable (hfits : f.isColorRenderable = true) :
    f.isCompressed = false := by
  unfold isColorRenderable at hfits
  unfold isCompressed
  cases hlayout : f.layout <;> simp [hlayout] at hfits ⊢

/-- Formats with a depth are not compressed. -/
theorem isCompressed_of_hasDepth (hfits : f.hasDepth = true) : f.isCompressed = false := by
  unfold hasDepth at hfits
  unfold isCompressed
  cases hlayout : f.layout <;> simp [hlayout] at hfits ⊢

/-- Formats with a stencil value are not compressed. -/
theorem isCompressed_of_hasStencil (hfits : f.hasStencil = true) : f.isCompressed = false := by
  unfold hasStencil at hfits
  unfold isCompressed
  cases hlayout : f.layout <;> simp [hlayout] at hfits ⊢

/-- A colour target is not a stencil target. -/
theorem not_hasStencil_of_isColorRenderable (hfits : f.isColorRenderable = true) :
    f.hasStencil = false := by
  unfold isColorRenderable at hfits
  unfold hasStencil
  cases hlayout : f.layout <;> simp [hlayout] at hfits ⊢

/-! ## Colours -/

/-- A texel of a format that fits colour targets has a colour. -/
theorem decode?_eq_some (hfits : f.isColorRenderable = true) (hlength : bytes.length = f.stride) :
    ∃ color, f.decode? bytes = some color := by
  unfold isColorRenderable at hfits
  unfold decode?
  rw [if_neg (by omega)]
  cases hlayout : f.layout <;> simp [hlayout] at hfits ⊢

/-- Colours are written in place. -/
theorem encode_frame (hfits : f.isColorRenderable = true) (hlong : f.stride ≤ bytes.length)
    (color : Color) (mask : ColorMask) :
    ∃ new, f.encode color mask bytes = .ok new ∧ new.length = bytes.length ∧
      new.drop f.stride = bytes.drop f.stride := by
  unfold isColorRenderable at hfits
  unfold encode
  rw [if_neg (Nat.not_lt.mpr hlong)]
  unfold stride at hlong ⊢
  cases hlayout : f.layout with
  | plain component channels bgr =>
    rw [hlayout] at hlong
    exact ⟨_, rfl, encodePlain_frame hlong⟩
  | packed fields =>
    rw [hlayout] at hlong
    have hword : ∀ word, 0 + (Bytes.wordBytes 2 word).length = 2 := fun word => by
      rw [Bytes.length_wordBytes]
    exact ⟨_, rfl, Bytes.length_overwrite (Nat.le_trans (Nat.le_of_eq (hword _)) hlong),
      Bytes.drop_overwrite (Nat.zero_le _) (Nat.le_of_eq (hword _))⟩
  | depth32 => simp [hlayout] at hfits
  | depth24Stencil8 => simp [hlayout] at hfits
  | stencil8 => simp [hlayout] at hfits
  | block kind => simp [hlayout] at hfits

/-- A colour can be written to it, and the number of bytes stays. -/
theorem encode_eq_ok (hfits : f.isColorRenderable = true) (hlength : bytes.length = f.stride)
    (color : Color) (mask : ColorMask) :
    ∃ new, f.encode color mask bytes = .ok new ∧ new.length = bytes.length := by
  obtain ⟨new, hencode, hnew, -⟩ := encode_frame hfits (Nat.le_of_eq hlength.symm) color mask
  exact ⟨new, hencode, hnew⟩

/-! ## Depths -/

/-- A texel of a format with a depth has one. -/
theorem readDepth?_eq_some (hfits : f.hasDepth = true) (hlength : bytes.length = f.stride) :
    ∃ depth, f.readDepth? bytes = some depth := by
  unfold hasDepth at hfits
  unfold stride at hlength
  unfold readDepth?
  cases hlayout : f.layout <;> simp [hlayout] at hfits hlength
  case depth32 =>
    rw [if_neg (by omega)]
    exact ⟨_, rfl⟩
  case depth24Stencil8 =>
    rw [if_neg (by omega)]
    exact ⟨_, rfl⟩

/-- Depths are written in place. -/
theorem writeDepth_frame (hfits : f.hasDepth = true) (hlong : f.stride ≤ bytes.length)
    (depth : Binary32) :
    ∃ new, f.writeDepth depth bytes = .ok new ∧ new.length = bytes.length ∧
      new.drop f.stride = bytes.drop f.stride := by
  have hword : ∀ word, 0 + (Bytes.wordBytes 4 word).length = 4 := fun word => by
    rw [Bytes.length_wordBytes]
  unfold hasDepth at hfits
  unfold stride at hlong ⊢
  unfold writeDepth
  cases hlayout : f.layout <;> simp [hlayout] at hfits hlong
  case depth32 | depth24Stencil8 =>
    rw [if_neg (Nat.not_lt.mpr hlong)]
    exact ⟨_, rfl, Bytes.length_overwrite (Nat.le_trans (Nat.le_of_eq (hword _)) hlong),
      Bytes.drop_overwrite (Nat.zero_le _) (Nat.le_of_eq (hword _))⟩

/-- A depth can be written to it, and the number of bytes stays. -/
theorem writeDepth_eq_ok (hfits : f.hasDepth = true) (hlength : bytes.length = f.stride)
    (depth : Binary32) :
    ∃ new, f.writeDepth depth bytes = .ok new ∧ new.length = bytes.length := by
  obtain ⟨new, hwrite, hnew, -⟩ := writeDepth_frame hfits (Nat.le_of_eq hlength.symm) depth
  exact ⟨new, hwrite, hnew⟩

/-! ## Stencil values -/

/-- A format with a stencil value has a byte for it. -/
theorem stencilIndex?_eq_some (hfits : f.hasStencil = true) :
    ∃ i, f.stencilIndex? = some i ∧ i < f.stride := by
  unfold hasStencil at hfits
  unfold stencilIndex? stride
  cases hlayout : f.layout <;> simp [hlayout] at hfits ⊢

/-- A texel of a format with a stencil value has one. -/
theorem readStencil?_eq_some (hfits : f.hasStencil = true) (hlength : bytes.length = f.stride) :
    ∃ value, f.readStencil? bytes = some value := by
  obtain ⟨i, hindex, hlt⟩ := stencilIndex?_eq_some hfits
  unfold readStencil?
  rw [hindex]
  exact ⟨_, List.getElem?_eq_getElem (hlength ▸ hlt)⟩

/-- Stencil values are written in place. -/
theorem writeStencil_frame (hfits : f.hasStencil = true) (hlong : f.stride ≤ bytes.length)
    (value : UInt8) :
    ∃ new, f.writeStencil value bytes = .ok new ∧ new.length = bytes.length ∧
      new.drop f.stride = bytes.drop f.stride := by
  obtain ⟨i, hindex, hlt⟩ := stencilIndex?_eq_some hfits
  unfold writeStencil
  rw [hindex]
  simp only
  rw [if_pos (Nat.lt_of_lt_of_le hlt hlong)]
  exact ⟨_, rfl, List.length_set, List.drop_set_of_lt hlt⟩

/-- A stencil value can be written to it, and the number of bytes stays. -/
theorem writeStencil_eq_ok (hfits : f.hasStencil = true) (hlength : bytes.length = f.stride)
    (value : UInt8) :
    ∃ new, f.writeStencil value bytes = .ok new ∧ new.length = bytes.length := by
  obtain ⟨new, hwrite, hnew, -⟩ := writeStencil_frame hfits (Nat.le_of_eq hlength.symm) value
  exact ⟨new, hwrite, hnew⟩

/-- Writing the stored stencil value changes nothing. -/
theorem writeStencil_self {value : UInt8} (hread : f.readStencil? bytes = some value) :
    f.writeStencil value bytes = .ok bytes := by
  unfold readStencil? at hread
  unfold writeStencil
  cases hindex : f.stencilIndex? with
  | none =>
    rw [hindex] at hread
    cases hread
  | some i =>
    rw [hindex] at hread
    simp only [Option.bind_eq_bind, Option.bind_some] at hread
    obtain ⟨hlt, hvalue⟩ := List.getElem?_eq_some_iff.mp hread
    simp only
    rw [if_pos hlt, ← hvalue, List.set_getElem_self]

end Format

end PixelPipeline
