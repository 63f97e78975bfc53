import PixelPipeline.Proofs.Binary32.Quotient
import PixelPipeline.Proofs.Image.Parts

/-!
# A depth and a stencil value in one texel

A depth of 24 bits and a stencil value share the four bytes of a texel.  The depth is
added below the stencil byte without being cut to its bits, and it stays in them because
it rounds to at most the greatest code.  So the two writes keep each other, and it does
not matter which comes first (`writes_commute`).

A depth reads as its code divided by the greatest one.  Writing it back multiplies by
the greatest code again, which undoes the rounding of the quotient: the texel stays,
whatever its code (`writeDepth_readDepth?`).

* `depthStencil_independent` — all this of every buffer, depth and stencil value.
-/

namespace PixelPipeline.Format

open Bytes (wordOf)

variable {f : Format} {bytes new deep marked both both' : Bytes} {depth : Binary32}
    {stencil : UInt8}

/-! ## Two writes -/

/-- A depth leaves the bytes behind its own three. -/
theorem drop_writeDepth (hwrite : d24UnormS8Uint.writeDepth depth bytes = .ok deep)
    (hlong : 4 ≤ bytes.length) (hlength : deep.length = bytes.length) :
    deep.drop 3 = bytes.drop 3 := by
  obtain ⟨g, hfield, hlt, hword⟩ := writeDepth_setField hwrite
  obtain rfl := Option.some.inj hfield
  refine Bytes.wordOf_inj (by rw [List.length_drop, List.length_drop, hlength]) ?_
  rw [Bytes.wordOf_drop (by omega), Bytes.wordOf_drop (by omega), hword, setField_bottom]
  change _ / 2 ^ 24 = _ / 2 ^ 24
  rw [Nat.mul_add_div (Nat.two_pow_pos 24), Nat.div_eq_of_lt hlt, Nat.add_zero]

/-- **The order of the two writes does not matter.** -/
theorem writes_commute (hdepth : f.hasDepth = true) (hstencil : f.hasStencil = true)
    (hlong : f.stride ≤ bytes.length) (hdeep : f.writeDepth depth bytes = .ok deep)
    (hmarked : f.writeStencil stencil bytes = .ok marked) :
    ∃ both, f.writeStencil stencil deep = .ok both ∧ f.writeDepth depth marked = .ok both := by
  obtain ⟨deep, hwrite, hlength, hdrop⟩ := writeDepth_frame hdepth hlong depth
  obtain rfl := Except.ok.inj (hwrite.symm.trans hdeep)
  obtain ⟨marked, hwrite', hlength', hdrop'⟩ := writeStencil_frame hstencil hlong stencil
  obtain rfl := Except.ok.inj (hwrite'.symm.trans hmarked)
  obtain ⟨both, hboth, hlengthBoth, hdropBoth⟩ :=
    writeStencil_frame hstencil (hlength ▸ hlong) stencil
  obtain ⟨both', hboth', hlengthBoth', hdropBoth'⟩ :=
    writeDepth_frame hdepth (hlength' ▸ hlong) depth
  refine ⟨both, hboth, hboth'.trans (congrArg Except.ok ?_)⟩
  refine eq_of_codes_of_drop (isCompressed_of_hasDepth hdepth) ?_ ?_ ?_ fun p => ?_
  · rw [hlengthBoth', hlengthBoth, hlength', hlength]
  · rw [hlengthBoth, hlength]
    exact hlong
  · rw [hdropBoth', hdropBoth, hdrop', hdrop]
  · cases p with
    | channel i =>
      have hne : Part.channel i ≠ .depth ∧ Part.channel i ≠ .stencil := ⟨nofun, nofun⟩
      rw [code?_writeDepth hboth' hne.1, code?_writeStencil hmarked hne.2,
        code?_writeStencil hboth hne.2, code?_writeDepth hdeep hne.1]
    | depth =>
      have hne : Part.depth ≠ .stencil := nofun
      rw [code?_writeDepth_self hboth', code?_writeStencil hboth hne, code?_writeDepth_self hdeep]
    | stencil =>
      have hne : Part.stencil ≠ .depth := nofun
      rw [code?_writeDepth hboth' hne, code?_writeStencil_self hmarked,
        code?_writeStencil_self hboth]

/-! ## Writing back -/

/-- The depth that was just read has the code that it was read from. -/
theorem depthCode_readDepth? (hread : d24UnormS8Uint.readDepth? bytes = some depth) :
    some (d24UnormS8Uint.depthCode depth) = d24UnormS8Uint.code? .depth bytes := by
  unfold readDepth? at hread
  by_cases hshort : bytes.length < 4
  · rw [if_pos hshort] at hread
    cases hread
  rw [if_neg hshort, Bytes.wordOf_take (Nat.le_of_not_lt hshort)] at hread
  obtain rfl := Option.some.inj hread
  have hcode : wordOf bytes % 256 ^ 4 % 2 ^ 24 = BitField.code ⟨0, 24⟩ (wordOf bytes) := by
    unfold BitField.code
    simp only [Nat.pow_zero, Nat.div_one]
    omega
  rw [hcode]
  exact congrArg some (Component.toNat_roundUnorm_div (Nat.mod_lt _ (Nat.two_pow_pos 24)))

/-- **Writing back the depth just read changes nothing.** -/
theorem writeDepth_readDepth? (hread : d24UnormS8Uint.readDepth? bytes = some depth)
    (hlong : 4 ≤ bytes.length) : d24UnormS8Uint.writeDepth depth bytes = .ok bytes := by
  obtain ⟨new, hwrite, hlength, hdrop⟩ :=
    writeDepth_frame (f := d24UnormS8Uint) rfl hlong depth
  refine hwrite.trans (congrArg Except.ok
    (eq_of_codes_of_drop (f := d24UnormS8Uint) rfl hlength hlong hdrop fun p => ?_))
  cases p with
  | channel i => exact code?_writeDepth hwrite nofun
  | depth => exact (code?_writeDepth_self hwrite).trans (depthCode_readDepth? hread)
  | stencil => exact code?_writeDepth hwrite nofun

/-- **A depth and a stencil value are independent**, of whatever bits they are, in any
buffer that holds a texel; a shorter one takes neither. -/
theorem depthStencil_independent (depth : Binary32) (stencil : UInt8) (bytes : Bytes) :
    let f := d24UnormS8Uint
    if 4 ≤ bytes.length then
      ∃ deep marked both read,
        f.writeDepth depth bytes = .ok deep ∧ deep.length = bytes.length ∧
        deep.drop 3 = bytes.drop 3 ∧ f.readStencil? deep = f.readStencil? bytes ∧
        f.writeStencil stencil bytes = .ok marked ∧ marked.length = bytes.length ∧
        (∀ i, i ≠ 3 → marked[i]? = bytes[i]?) ∧ f.readStencil? marked = some stencil ∧
        f.readDepth? marked = f.readDepth? bytes ∧
        f.writeStencil stencil deep = .ok both ∧ f.writeDepth depth marked = .ok both ∧
        f.readDepth? bytes = some read ∧ f.writeDepth read bytes = .ok bytes
    else
      f.writeDepth depth bytes = .error (.unsupportedTarget f .depth) ∧
        f.writeStencil stencil bytes = .error (.unsupportedTarget f .stencil) := by
  intro f
  split
  case isTrue hlong =>
    obtain ⟨deep, hdeep, hlength, -⟩ := writeDepth_frame (f := f) rfl hlong depth
    have hmarked : f.writeStencil stencil bytes = .ok (bytes.set 3 stencil) := if_pos hlong
    obtain ⟨both, hboth, hboth'⟩ := writes_commute (f := f) rfl rfl hlong hdeep hmarked
    have hdrop := drop_writeDepth hdeep hlong hlength
    have hbyte : deep[3]? = bytes[3]? := by
      have hfirst := congrArg (·[0]?) hdrop
      simpa only [List.getElem?_drop] using hfirst
    have hread : ∃ read, f.readDepth? bytes = some read := ⟨_, if_neg (Nat.not_lt.mpr hlong)⟩
    obtain ⟨read, hread⟩ := hread
    exact ⟨deep, bytes.set 3 stencil, both, read, hdeep, hlength, hdrop, hbyte, hmarked,
      List.length_set, fun i hi => List.getElem?_set_ne hi.symm, List.getElem?_set_self hlong,
      readDepth?_congr List.length_set (code?_writeStencil hmarked nofun), hboth, hboth', hread,
      writeDepth_readDepth? hread hlong⟩
  case isFalse hshort =>
    exact ⟨if_pos (Nat.lt_of_not_le hshort), if_neg hshort⟩

end PixelPipeline.Format
