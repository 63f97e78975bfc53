import PixelPipeline.Proofs.Binary32.Clamp
import PixelPipeline.Proofs.Image.Codec
import PixelPipeline.Proofs.Image.Fields

/-!
# The parts of a texel

A texel holds up to four channels, or a depth, or a stencil value.  In every format
each of these is a bit field of the number that the bytes write (`field?`).  The
fields of different parts are apart (`fields_apart`), and outside of the block
formats they are all of the texel (`eq_of_codes`); what is read of a part depends on
its field alone.

Writing replaces the fields it is asked for, and no bit besides.  A depth and a
stencil value that share a texel keep each other (`code?_writeDepth`,
`code?_writeStencil`): a depth rounds to at most the greatest code, so it does not
reach into the stencil value.
-/

namespace PixelPipeline

/-! ## Parts -/

/-- What a texel can hold. -/
inductive Part where
  | channel (i : Fin 4)
  | depth
  | stencil
  deriving DecidableEq, Repr

/-- Every part. -/
def Part.all : List Part := (List.finRange 4).map .channel ++ [.depth, .stencil]

/-- The list of parts is complete. -/
theorem Part.mem_all (p : Part) : p ∈ Part.all := by
  cases p with
  | channel i => exact List.mem_append_left _ (List.mem_map_of_mem (List.mem_finRange i))
  | depth => decide
  | stencil => decide

namespace Format

open Bytes (wordOf slice overwrite)

variable {f : Format} {p p' : Part} {bytes new : Bytes}

/-- The place of a channel among the components of a plain texel, which is also the
channel at a place. -/
def place (bgr : Bool) (i : Fin 4) : Fin 4 := (reorder bgr (Vector.ofFn id)).get i

/-- A reordered vector has its channels in their places. -/
theorem get_reorder {α : Type} (bgr : Bool) (v : Vector α 4) (i : Fin 4) :
    (reorder bgr v).get i = v.get (place bgr i) := by
  have hplace : ∀ (bgr : Bool) (i : Fin 4), place bgr i
      = if bgr then #v[Color.blueChannel, Color.greenChannel, Color.redChannel,
          Color.alphaChannel].get i else i := by decide
  rw [hplace]
  cases bgr with
  | false => rfl
  | true =>
    unfold reorder
    rw [if_pos rfl, if_pos rfl]
    match i with
    | 0 | 1 | 2 | 3 => rfl

/-- Exchanging red and blue twice exchanges nothing. -/
theorem place_place (bgr : Bool) (i : Fin 4) : place bgr (place bgr i) = i := by
  revert bgr i
  decide

/-- Where a part lies in the number that a texel's bytes write. -/
def field? (f : Format) (p : Part) : Option BitField :=
  match f.layout, p with
  | .plain component channels bgr, .channel i =>
    if place bgr i < channels then
      some ⟨8 * (place bgr i * component.size), 8 * component.size⟩
    else none
  | .packed fields, .channel i => if (fields.get i).width = 0 then none else some (fields.get i)
  | .depth32, .depth => some ⟨0, 32⟩
  | .depth24Stencil8, .depth => some ⟨0, 24⟩
  | .depth24Stencil8, .stencil => some ⟨24, 8⟩
  | .stencil8, .stencil => some ⟨0, 8⟩
  | _, _ => none

/-- The bits of a part, if the format has it. -/
def code? (f : Format) (p : Part) (bytes : Bytes) : Option Nat :=
  (f.field? p).map fun g => g.code (wordOf bytes)

section Fields

variable {component : Component} {channels : Nat} {bgr : Bool} {fields : Vector BitField 4}
  {i : Fin 4}

/-- A channel of a plain format is a whole component. -/
theorem field?_plain (hlayout : f.layout = .plain component channels bgr)
    (hplace : place bgr i < channels) :
    f.field? (.channel i)
      = some ⟨8 * (place bgr i * component.size), 8 * component.size⟩ := by
  unfold field?
  rw [hlayout]
  exact if_pos hplace

/-- A channel of a packed format is the bit field that is listed for it. -/
theorem field?_packed (hlayout : f.layout = .packed fields) (hwidth : (fields.get i).width ≠ 0) :
    f.field? (.channel i) = some (fields.get i) := by
  unfold field?
  rw [hlayout]
  exact if_neg hwidth

end Fields

/-- The list of formats is complete. -/
theorem mem_all (f : Format) : f ∈ (Named.all : List Format) := by
  cases f <;> decide

/-- Different parts have different bits. -/
theorem fields_apart {g g' : BitField} (hfield : f.field? p = some g)
    (hfield' : f.field? p' = some g') (hne : p ≠ p') : g.Apart g' := by
  have hall : ∀ f ∈ (Named.all : List Format), ∀ p ∈ Part.all, ∀ p' ∈ Part.all, p ≠ p' →
      ∀ g ∈ f.field? p, ∀ g' ∈ f.field? p', g.Apart g' := by decide +kernel
  exact hall f f.mem_all p p.mem_all p' p'.mem_all hne g hfield g' hfield'

/-- The parts lie inside the texel. -/
theorem field_le {g : BitField} (hfield : f.field? p = some g) :
    g.shift + g.width ≤ 8 * f.stride := by
  have hall : ∀ f ∈ (Named.all : List Format), ∀ p ∈ Part.all, ∀ g ∈ f.field? p,
      g.shift + g.width ≤ 8 * f.stride := by decide +kernel
  exact hall f f.mem_all p p.mem_all g hfield

/-- The fields of a packed word lie in its two bytes. -/
theorem packed_field_le {fields : Vector BitField 4} {i : Fin 4}
    (hlayout : f.layout = .packed fields) (hwidth : (fields.get i).width ≠ 0) :
    (fields.get i).shift + (fields.get i).width ≤ 8 * 2 := by
  have hle := field_le (field?_packed hlayout hwidth)
  unfold stride at hle
  rw [hlayout] at hle
  exact hle

/-- The parts are all of the texel. -/
theorem exists_field (hplain : f.isCompressed = false) {k : Nat} (hk : k < 8 * f.stride) :
    ∃ p g, f.field? p = some g ∧ g.shift ≤ k ∧ k < g.shift + g.width := by
  have hall : ∀ f ∈ (Named.all : List Format), f.isCompressed = false → ∀ k < 8 * f.stride,
      ∃ p ∈ Part.all, ∃ g ∈ f.field? p, g.shift ≤ k ∧ k < g.shift + g.width := by
    decide +kernel
  obtain ⟨p, -, g, hfield, hinside⟩ := hall f f.mem_all hplain k hk
  exact ⟨p, g, hfield, hinside⟩

/-- Texels with one code of a part agree in the bits of the part. -/
theorem testBit_of_code?_eq {g : BitField} (hfield : f.field? p = some g)
    (hcode : f.code? p new = f.code? p bytes) {k : Nat} (hstart : g.shift ≤ k)
    (hend : k < g.shift + g.width) : (wordOf new).testBit k = (wordOf bytes).testBit k := by
  unfold code? at hcode
  rw [hfield] at hcode
  exact BitField.testBit_of_code_eq (Option.some.inj hcode) hstart hend

/-- Bytes with the same parts that end alike behind the texel are the same. -/
theorem eq_of_codes_of_drop (hplain : f.isCompressed = false)
    (hlength : new.length = bytes.length) (hlong : f.stride ≤ bytes.length)
    (hdrop : new.drop f.stride = bytes.drop f.stride)
    (hcodes : ∀ p, f.code? p new = f.code? p bytes) : new = bytes := by
  refine Bytes.wordOf_inj hlength (Nat.eq_of_testBit_eq fun k => ?_)
  by_cases hk : k < 8 * f.stride
  · obtain ⟨p, g, hfield, hstart, hend⟩ := exists_field hplain hk
    exact testBit_of_code?_eq hfield (hcodes p) hstart hend
  · exact Bytes.testBit_of_drop_eq hlength hlong hdrop (Nat.le_of_not_lt hk)

/-- **The codes of the parts are all that a texel holds.** -/
theorem eq_of_codes (hplain : f.isCompressed = false) (hlength : bytes.length = f.stride)
    (hlength' : new.length = f.stride) (hcodes : ∀ p, f.code? p new = f.code? p bytes) :
    new = bytes := by
  have hdrop : new.drop f.stride = bytes.drop f.stride := by
    rw [List.drop_eq_nil_of_le (Nat.le_of_eq hlength'),
      List.drop_eq_nil_of_le (Nat.le_of_eq hlength)]
  exact eq_of_codes_of_drop hplain (hlength'.trans hlength.symm) (Nat.le_of_eq hlength.symm)
    hdrop hcodes

/-! ## Reading -/

/-- The stencil value is the code of its part. -/
theorem code?_of_readStencil? {value : UInt8} (hread : f.readStencil? bytes = some value) :
    f.code? .stencil bytes = some value.toNat := by
  unfold readStencil? stencilIndex? at hread
  unfold code? field?
  cases hlayout : f.layout <;> rw [hlayout] at hread
  case depth24Stencil8 => exact congrArg some (Bytes.code_of_getElem? (i := 3) hread)
  case stencil8 => exact congrArg some (Bytes.code_of_getElem? (i := 0) hread)
  all_goals cases hread

/-- What is read as a depth is in the bits of the depth. -/
theorem readDepth?_congr (hlength : new.length = bytes.length)
    (hcode : f.code? .depth new = f.code? .depth bytes) :
    f.readDepth? new = f.readDepth? bytes := by
  unfold readDepth?
  rw [hlength]
  by_cases hshort : bytes.length < 4
  · rw [if_pos hshort, if_pos hshort]
  have hlong : 4 ≤ bytes.length := Nat.le_of_not_lt hshort
  have hlong' : 4 ≤ new.length := hlength ▸ hlong
  rw [if_neg hshort, if_neg hshort, Bytes.wordOf_take hlong, Bytes.wordOf_take hlong']
  unfold code? field? at hcode
  cases hlayout : f.layout <;> rw [hlayout] at hcode
  case depth32 =>
    have hword : wordOf new % 2 ^ 32 = wordOf bytes % 2 ^ 32 := by
      simpa [BitField.code] using hcode
    exact congrArg (fun word => some (Binary32.mk word.toUInt32)) hword
  case depth24Stencil8 =>
    have hword : wordOf new % 2 ^ 24 = wordOf bytes % 2 ^ 24 := by
      simpa [BitField.code] using hcode
    have hlow : ∀ word, word % 256 ^ 4 % 2 ^ 24 = word % 2 ^ 24 := fun word => by omega
    simp only [hlow, hword]

/-- The value of a channel with these bits; a channel that the format lacks has a
fixed one. -/
def channelOf (f : Format) (i : Fin 4) (code : Option Nat) : Binary32 :=
  match f.layout, code with
  | .plain component _ _, some code => component.decodeWord code
  | .packed fields, some code =>
    Binary32.ofNat code / Binary32.ofNat (fieldMax (fields.get i))
  | _, _ => Color.opaqueBlack.get i

/-- Red and blue of opaque black are the same. -/
theorem get_opaqueBlack_place (bgr : Bool) (i : Fin 4) :
    Color.opaqueBlack.get (place bgr i) = Color.opaqueBlack.get i := by
  revert bgr i
  decide

/-- What is read as a channel of a colour is in the bits of the channel. -/
theorem get_decode? (hrenderable : f.isColorRenderable = true) (hlong : f.stride ≤ bytes.length)
    (i : Fin 4) :
    (f.decode? bytes).map (·.get i) = some (f.channelOf i (f.code? (.channel i) bytes)) := by
  unfold decode?
  rw [if_neg (Nat.not_lt.mpr hlong)]
  unfold isColorRenderable at hrenderable
  unfold stride at hlong
  unfold channelOf code? field?
  cases hlayout : f.layout <;> rw [hlayout] at hrenderable hlong
  case plain component channels bgr =>
    simp only [Option.map_some, decodePlain, get_reorder, Color.get_ofFn]
    by_cases hplace : place bgr i < channels
    · have hend : (place bgr i + 1) * component.size ≤ component.size * channels :=
        Nat.mul_comm component.size channels ▸ Nat.mul_le_mul_right _ hplace
      have hle : place bgr i * component.size + component.size ≤ bytes.length := by
        rw [Nat.succ_mul] at hend
        simp only at hlong
        omega
      rw [if_pos hplace, if_pos hplace]
      unfold Component.decode
      rw [Bytes.wordOf_slice hle]
      rfl
    · rw [if_neg hplace, if_neg hplace, get_opaqueBlack_place]
      rfl
  case packed fields =>
    simp only [Option.map_some, decodePacked, Color.get_ofFn]
    by_cases hwidth : (fields.get i).width = 0
    · rw [if_pos hwidth, if_pos hwidth]
      rfl
    · rw [if_neg hwidth, if_neg hwidth, Option.map_some,
        ← Bytes.code_take (packed_field_le hlayout hwidth) hlong]
      rfl
  all_goals cases hrenderable

/-! ## Writing -/

/-- Setting the field of one part keeps the others. -/
theorem code?_setField {g : BitField} {code : Nat} (hfield : f.field? p' = some g)
    (hcode : code < 2 ^ g.width) (hword : wordOf new = setField g (wordOf bytes) code)
    (hne : p ≠ p') : f.code? p new = f.code? p bytes := by
  unfold code?
  cases hother : f.field? p with
  | none => rfl
  | some g' =>
    rw [Option.map_some, Option.map_some, hword,
      code_setField_of_apart hcode (fields_apart hother hfield hne)]

/-- A stencil value is written to its field. -/
theorem writeStencil_setField {value : UInt8} (hwrite : f.writeStencil value bytes = .ok new) :
    ∃ g, f.field? .stencil = some g ∧ value.toNat < 2 ^ g.width ∧
      wordOf new = setField g (wordOf bytes) value.toNat := by
  have hset : ∀ i, i < bytes.length →
      wordOf (bytes.set i value) = setField ⟨8 * i, 8⟩ (wordOf bytes) value.toNat := by
    intro i hlt
    have hle : i + [value].length ≤ bytes.length := hlt
    rw [Bytes.set_eq_overwrite hlt, Bytes.wordOf_overwrite hle]
    rfl
  unfold writeStencil stencilIndex? at hwrite
  unfold field?
  cases hlayout : f.layout <;> rw [hlayout] at hwrite
  case depth24Stencil8 =>
    by_cases hlt : 3 < bytes.length
    · simp only [if_pos hlt] at hwrite
      obtain rfl := Except.ok.inj hwrite
      exact ⟨_, rfl, value.toNat_lt, hset 3 hlt⟩
    · simp only [if_neg hlt] at hwrite
      cases hwrite
  case stencil8 =>
    by_cases hlt : 0 < bytes.length
    · simp only [if_pos hlt] at hwrite
      obtain rfl := Except.ok.inj hwrite
      exact ⟨_, rfl, value.toNat_lt, hset 0 hlt⟩
    · simp only [if_neg hlt] at hwrite
      cases hwrite
  all_goals cases hwrite

/-- **A stencil value is written to the bits of the stencil value.** -/
theorem code?_writeStencil {value : UInt8} (hwrite : f.writeStencil value bytes = .ok new)
    (hne : p ≠ .stencil) : f.code? p new = f.code? p bytes := by
  obtain ⟨g, hfield, hlt, hword⟩ := writeStencil_setField hwrite
  exact code?_setField hfield hlt hword hne

/-- The stencil value that was written is the code. -/
theorem code?_writeStencil_self {value : UInt8} (hwrite : f.writeStencil value bytes = .ok new) :
    f.code? .stencil new = some value.toNat := by
  obtain ⟨g, hfield, hlt, hword⟩ := writeStencil_setField hwrite
  unfold code?
  rw [hfield, Option.map_some, hword, code_setField hlt]

/-- A depth rounds to at most the greatest code. -/
theorem depth24_lt (depth : Binary32) :
    (Component.roundUnorm depth depth24Max).toUInt32.toNat < 2 ^ 24 := by
  have hmax : Binary32.AtMost 0xffffff depth24Max.unpacked := by
    have hbits : depth24Max.bits = 0x4b7fffff := by decide +kernel
    unfold Binary32.unpacked
    rw [hbits]
    change 16777215 * 2 ^ 0 ≤ 16777215 * 2 ^ 0
    exact Nat.le_refl _
  have hle := Binary32.toUInt32_le
    (Component.atMost_roundUnorm (by decide) (by decide) hmax depth)
  rw [← Binary32.toUInt32_eq] at hle
  omega

/-- The code that a depth is written as. -/
def depthCode (f : Format) (depth : Binary32) : Nat :=
  match f.layout with
  | .depth32 => depth.bits.toNat
  | .depth24Stencil8 => (Component.roundUnorm depth depth24Max).toUInt32.toNat
  | _ => 0

/-- A depth is written to its field. -/
theorem writeDepth_setField {depth : Binary32} (hwrite : f.writeDepth depth bytes = .ok new) :
    ∃ g, f.field? .depth = some g ∧ f.depthCode depth < 2 ^ g.width ∧
      wordOf new = setField g (wordOf bytes) (f.depthCode depth) := by
  unfold writeDepth at hwrite
  by_cases hshort : bytes.length < 4
  · rw [if_pos hshort] at hwrite
    cases hwrite
  rw [if_neg hshort] at hwrite
  have hoverwrite : ∀ word, wordOf (overwrite bytes 0 (Bytes.wordBytes 4 word))
      = setField ⟨0, 32⟩ (wordOf bytes) (word % 2 ^ 32) := by
    intro word
    have hlength := Bytes.length_wordBytes 4 word
    rw [Bytes.wordOf_overwrite (by omega), hlength, Bytes.wordOf_wordBytes, Bytes.pow_bytes]
  unfold field? depthCode
  cases hlayout : f.layout <;> rw [hlayout] at hwrite
  case depth32 =>
    have hlt := depth.bits.toNat_lt
    obtain rfl := Except.ok.inj hwrite
    refine ⟨_, rfl, hlt, ?_⟩
    rw [hoverwrite, Nat.mod_eq_of_lt hlt]
  case depth24Stencil8 =>
    have hlt := depth24_lt depth
    obtain rfl := Except.ok.inj hwrite
    refine ⟨_, rfl, hlt, ?_⟩
    rw [hoverwrite, Bytes.wordOf_take (by omega), Bytes.pow_bytes]
    exact setField_three_bytes _ hlt
  all_goals cases hwrite

/-- **A depth is written to the bits of the depth.** -/
theorem code?_writeDepth {depth : Binary32} (hwrite : f.writeDepth depth bytes = .ok new)
    (hne : p ≠ .depth) : f.code? p new = f.code? p bytes := by
  obtain ⟨g, hfield, hlt, hword⟩ := writeDepth_setField hwrite
  exact code?_setField hfield hlt hword hne

/-- The code of the depth that was written is the code. -/
theorem code?_writeDepth_self {depth : Binary32} (hwrite : f.writeDepth depth bytes = .ok new) :
    f.code? .depth new = some (f.depthCode depth) := by
  obtain ⟨g, hfield, hlt, hword⟩ := writeDepth_setField hwrite
  unfold code?
  rw [hfield, Option.map_some, hword, code_setField hlt]

/-- A depth that is stored in full is read as it was written. -/
theorem readDepth?_writeDepth {depth : Binary32} (hlayout : f.layout = .depth32)
    (hwrite : f.writeDepth depth bytes = .ok new) : f.readDepth? new = some depth := by
  have hlong : 4 ≤ new.length := by
    unfold writeDepth at hwrite
    by_cases hshort : bytes.length < 4
    · rw [if_pos hshort] at hwrite
      cases hwrite
    · rw [if_neg hshort, hlayout] at hwrite
      obtain rfl := Except.ok.inj hwrite
      have hword := Bytes.length_wordBytes 4 depth.bits.toNat
      rw [Bytes.length_overwrite (by omega)]
      omega
  have hcode := code?_writeDepth_self hwrite
  unfold code? field? depthCode at hcode
  rw [hlayout] at hcode
  have hword : wordOf new % 256 ^ 4 = depth.bits.toNat := by
    simpa [BitField.code] using hcode
  unfold readDepth?
  rw [if_neg (Nat.not_lt.mpr hlong), Bytes.wordOf_take hlong, hlayout, hword]
  exact congrArg some (congrArg Binary32.mk (UInt32.ofNat_toNat ..))

end Format

end PixelPipeline
