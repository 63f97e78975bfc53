import PixelPipeline.Proofs.Draw.Writing
import PixelPipeline.Proofs.Image.Codec

/-!
# The texel under a fragment

A target shows one texel at a window position.  As long as its surface exists
that texel is there with all its bytes, and replacing
it changes no other texel of any image (`Sited.write`).

`Texels` is the view of all images in which this is said: what a texel holds,
whatever the image makes of its bytes.  `Draws` says that a step of drawing left
certain texels, and touched nothing but the images of the targets.
-/

namespace PixelPipeline

/-- What every texel of every image holds. -/
abbrev Texels : Type := Handle .image → TexelIndex → Option Bytes

/-- What the texels of the live images hold. -/
def Resources.texels (r : Resources) : Texels := fun h t => r.images.get? h >>= (·.texel? t)

/-- A texel of a target. -/
structure Spot where
  format : Format
  image : Handle .image
  texel : TexelIndex

namespace Spot

/-- The bytes of the texel. -/
def read (p : Spot) (m : Texels) : Option Bytes := m p.image p.texel

/-- Replaces the bytes of the texel. -/
def write (p : Spot) (bytes : Bytes) (m : Texels) : Texels := fun h t =>
  if h = p.image ∧ t = p.texel then some bytes else m h t

variable {p p' : Spot} {bytes : Bytes} {m : Texels}

/-- Texels of other images are not replaced. -/
theorem read_write_of_image_ne (hne : p'.image ≠ p.image) :
    p'.read (p.write bytes m) = p'.read m :=
  if_neg fun h => hne h.1

/-- A texel that is given what it holds stays as it is. -/
theorem write_self (hread : p.read m = some bytes) : p.write bytes m = m := by
  funext h t
  unfold write
  by_cases hsame : h = p.image ∧ t = p.texel
  · rw [if_pos hsame, hsame.1, hsame.2]
    exact hread.symm
  · rw [if_neg hsame]

end Spot

namespace Surface

/-- The texel that a surface shows at a window position: rows count upward in the
window and downward in the image. -/
def spot? (s : Surface) (x y : Int) : Option Spot :=
  if 0 ≤ x ∧ x < s.width ∧ 0 ≤ y ∧ y < s.height then
    some ⟨s.format, s.image, ⟨s.level, s.layer, x.toNat, s.height - 1 - y.toNat, 0⟩⟩
  else none

variable {s : Surface} {x y : Int} {p : Spot}

/-- The texel is that at the position in numbers. -/
theorem spot?_eq (hx : 0 ≤ x) (hy : 0 ≤ y) :
    s.spot? x y = (s.texelIndex? x.toNat y.toNat).map (Spot.mk s.format s.image) := by
  unfold spot? texelIndex? texelCoord?
  by_cases hinside : x.toNat < s.width ∧ y.toNat < s.height
  · rw [if_pos hinside, if_pos (by omega)]
    rfl
  · rw [if_neg hinside, if_neg (by omega)]
    rfl

/-- A surface shows texels of its image inside its window, and no others. -/
theorem spot?_eq_some (hspot : s.spot? x y = some p) :
    (0 ≤ x ∧ x < s.width ∧ 0 ≤ y ∧ y < s.height) ∧
      p = ⟨s.format, s.image, ⟨s.level, s.layer, x.toNat, s.height - 1 - y.toNat, 0⟩⟩ := by
  unfold spot? at hspot
  by_cases hinside : 0 ≤ x ∧ x < s.width ∧ 0 ≤ y ∧ y < s.height
  · rw [if_pos hinside] at hspot
    exact ⟨hinside, (Option.some.inj hspot).symm⟩
  · rw [if_neg hinside] at hspot
    cases hspot

/-- A spot of a surface lies in its image. -/
theorem spot?_image (hspot : s.spot? x y = some p) : p.image = s.image := by
  rw [(spot?_eq_some hspot).2]

end Surface

namespace Resources

variable {r r' : Resources} {p : Spot} {s : Surface} {x y : Int}

/-- The texel exists in a live image. -/
def Sited (r : Resources) (p : Spot) : Prop :=
  ∃ i, r.images.get? p.image = some i ∧ i.Stored ∧ i.desc.format = p.format ∧
    i.Contains p.texel

/-- Steps of drawing keep the texel. -/
theorem Sited.redrawn (hsited : r.Sited p) (hredrawn : r.Redrawn r') : r'.Sited p := by
  obtain ⟨i, hget, hstored, hformat, hcontains⟩ := hsited
  obtain ⟨i', hget', hframe⟩ := hredrawn.image hget
  have hdesc : i'.desc = i.desc := congrArg Prod.fst hframe
  refine ⟨i', hget', hstored.of_frame hframe, hdesc ▸ hformat, ?_⟩
  obtain ⟨hlevel, hlayer, hx, hy, hz⟩ := hcontains
  exact ⟨hdesc ▸ hlevel, hdesc ▸ hlayer, hdesc ▸ hx, hdesc ▸ hy, hdesc ▸ hz⟩

/-- The texel has the bytes of its format. -/
theorem Sited.read (hsited : r.Sited p) :
    ∃ bytes, p.read r.texels = some bytes ∧ bytes.length = p.format.stride := by
  obtain ⟨i, hget, hstored, hformat, hcontains⟩ := hsited
  obtain ⟨bytes, hbytes, hlength⟩ := hstored.texel? hcontains
  refine ⟨bytes, ?_, hformat ▸ hlength⟩
  unfold Spot.read texels
  rw [hget]
  exact hbytes

/-- Replacing the texel replaces that texel only. -/
theorem Sited.write (hsited : r.Sited p) (hplain : p.format.isCompressed = false) {bytes : Bytes}
    (hlength : bytes.length = p.format.stride) :
    (r.modifyImage p.image fun i => i.setTexel p.texel bytes).texels = p.write bytes r.texels := by
  obtain ⟨i, hget, hstored, hformat, hcontains⟩ := hsited
  funext h t
  change (r.images.modify p.image _).get? h >>= (·.texel? t) = _
  rw [Arena.get?_modify]
  unfold Spot.write texels
  by_cases hh : h = p.image
  · rw [if_pos hh, hh, hget]
    have hset := hstored.texel?_setTexel (hformat ▸ hplain) hcontains (hformat ▸ hlength) t
    by_cases ht : t = p.texel
    · rw [if_pos ⟨rfl, ht⟩]
      rw [if_pos ht] at hset
      exact hset
    · rw [if_neg fun hboth => ht hboth.2]
      rw [if_neg ht] at hset
      exact hset
  · rw [if_neg hh, if_neg fun hboth => hh hboth.1]

/-- The texel of a live surface exists. -/
theorem Valid.sited (hvalid : r.Valid) {h : Handle .surface} (hget : r.surfaces.get? h = some s)
    (hspot : s.spot? x y = some p) : r.Sited p := by
  obtain ⟨i, himage, hof⟩ := hvalid.drawn h s hget
  obtain ⟨⟨hx, hx', hy, hy'⟩, rfl⟩ := Surface.spot?_eq_some hspot
  refine ⟨i, himage, hvalid.stored _ i himage, hof.format.symm,
    hof.level, hof.layer, ?_, ?_, ?_⟩
  · have hwidth := hof.width
    simp only
    omega
  · have hheight := hof.height
    simp only
    omega
  · simp only [ImageDesc.levelExtent]
    split <;> omega

/-! ## Steps of drawing -/

/-- A step of drawing leaves these texels, and changes nothing but bytes of
these images. -/
structure Draws (images : List (Handle .image)) (r : Resources) (m : Texels) (r' : Resources) :
    Prop where
  redrawn : r.Redrawn r'
  texels : r'.texels = m
  others : ∀ h, h ∉ images → r'.images.get? h = r.images.get? h

namespace Draws

variable {images : List (Handle .image)} {m m' : Texels} {r'' : Resources}

theorem refl (r : Resources) : Draws images r r.texels r := ⟨.refl r, rfl, fun _ _ => rfl⟩

theorem trans (hfirst : Draws images r m r') (hrest : Draws images r' m' r'') :
    Draws images r m' r'' where
  redrawn := hfirst.redrawn.trans hrest.redrawn
  texels := hrest.texels
  others h hother := (hrest.others h hother).trans (hfirst.others h hother)

end Draws

end Resources

end PixelPipeline
