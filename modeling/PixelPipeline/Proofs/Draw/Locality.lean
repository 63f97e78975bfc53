import PixelPipeline.Proofs.Draw.Reference

/-!
# A fragment keeps to its own texels

What becomes of a fragment depends on the texels that the targets show under it,
and on no others, and it changes no others.  Both are said by one equation: to
`splice` other contents around those texels before a step, or after it, is the
same (`Local`).  Steps after one another are local when each is (`Local.bind`), and
so the whole reference is (`final_local`).

Steps that are local to different texels can be done in either order
(`splice_commute`).
-/

namespace PixelPipeline

/-- The texel is one of these spots. -/
def Spot.Among (spots : List Spot) (h : Handle .image) (t : TexelIndex) : Prop :=
  ∃ p ∈ spots, p.image = h ∧ p.texel = t

instance (spots : List Spot) (h : Handle .image) (t : TexelIndex) :
    Decidable (Spot.Among spots h t) :=
  inferInstanceAs (Decidable (∃ p ∈ spots, _))

/-- A spot is among the spots that it belongs to. -/
theorem Spot.among_self {spots : List Spot} {p : Spot} (hmem : p ∈ spots) :
    Spot.Among spots p.image p.texel := ⟨p, hmem, rfl, rfl⟩

namespace Texels

variable {spots : List Spot} {m m' : Texels} {p : Spot}

/-- What the first texels hold in these spots, and the second elsewhere. -/
def splice (spots : List Spot) (m m' : Texels) : Texels := fun h t =>
  if Spot.Among spots h t then m h t else m' h t

/-- Texels that agree in the spots are spliced to the second ones. -/
theorem splice_of_agree (hagree : ∀ h t, Spot.Among spots h t → m h t = m' h t) :
    splice spots m m' = m' := by
  funext h t
  unfold splice
  by_cases hamong : Spot.Among spots h t
  · rw [if_pos hamong, hagree h t hamong]
  · rw [if_neg hamong]

/-- Texels spliced with themselves are the same. -/
theorem splice_self (spots : List Spot) (m : Texels) : splice spots m m = m :=
  splice_of_agree fun _ _ _ => rfl

/-- A spot of the splice is the one of the first texels. -/
theorem read_splice (hmem : p ∈ spots) : p.read (splice spots m m') = p.read m :=
  if_pos (Spot.among_self hmem)

/-- Replacing one of the spots does not touch what lies around them. -/
theorem write_splice (hmem : p ∈ spots) (bytes : Bytes) :
    p.write bytes (splice spots m m') = splice spots (p.write bytes m) m' := by
  funext h t
  unfold Spot.write splice
  by_cases hsame : h = p.image ∧ t = p.texel
  · have hamong : Spot.Among spots h t := hsame.1 ▸ hsame.2 ▸ Spot.among_self hmem
    simp only [if_pos hsame, if_pos hamong]
  · simp only [if_neg hsame]

/-- Steps on texels that are spliced together from what they are local to can be
done in either order. -/
theorem splice_commute {spots' : List Spot}
    (hapart : ∀ h t, Spot.Among spots h t → ¬ Spot.Among spots' h t) (step step' : Texels → Texels)
    (hstep : ∀ m m', step (splice spots m m') = splice spots (step m) m')
    (hstep' : ∀ m m', step' (splice spots' m m') = splice spots' (step' m) m') (m : Texels) :
    step' (step m) = step (step' m) := by
  -- a step leaves the other's spots as they were, so the other does there what it would have done
  have hfirst : step m = splice spots (step m) m := by rw [← hstep, splice_self]
  have hother : step' m = splice spots' (step' m) m := by rw [← hstep', splice_self]
  have hkept : splice spots m (step' m) = step' m := by
    refine splice_of_agree fun h t hamong => ?_
    rw [hother]
    exact (if_neg (hapart h t hamong)).symm
  have hkept' : splice spots' m (step m) = step m := by
    refine splice_of_agree fun h t hamong => ?_
    rw [hfirst]
    exact (if_neg fun hamong' => hapart h t hamong' hamong).symm
  have hleft : step' (step m) = splice spots' (step' m) (step m) := by rw [← hstep', hkept']
  have hright : step (step' m) = splice spots (step m) (step' m) := by rw [← hstep, hkept]
  rw [hleft, hright, hfirst, hother]
  funext h t
  unfold splice
  by_cases hamong : Spot.Among spots h t
  · simp only [if_pos hamong, if_neg (hapart h t hamong)]
  · by_cases hamong' : Spot.Among spots' h t
    · simp only [if_neg hamong, if_pos hamong']
    · simp only [if_neg hamong, if_neg hamong']

end Texels

open Texels

/-! ## Local steps -/

/-- The step looks at these spots and changes these spots, and no other texel. -/
def Local (spots : List Spot) (step : Texels → Option Texels) : Prop :=
  ∀ m m', step (splice spots m m') = (step m).map (splice spots · m')

namespace Local

variable {spots : List Spot} {step : Texels → Option Texels}

/-- Doing nothing is local. -/
theorem some : Local spots some := fun _ _ => rfl

/-- A local step and then another. -/
theorem bind {next : Texels → Option Texels} (hstep : Local spots step)
    (hnext : Local spots next) : Local spots fun m => step m >>= next := by
  intro m m'
  simp only [hstep m m']
  cases step m with
  | none => rfl
  | some n => exact hnext n m'

/-- A local step does not change texels that are not its own. -/
theorem frame (hstep : Local spots step) {m n : Texels} (hn : step m = Option.some n)
    {h : Handle .image} {t : TexelIndex} (hother : ¬ Spot.Among spots h t) : n h t = m h t := by
  have hspliced := hstep m m
  rw [splice_self, hn, Option.map_some] at hspliced
  rw [Option.some.inj hspliced]
  exact if_neg hother

end Local

/-! ## The reference is local -/

namespace Scene

variable (q : Scene) (f : Fragment)

/-- The texels that the targets show under a fragment. -/
def spots : List Spot := q.surfaces.filterMap fun s => s.spot? f.x f.y

variable {q f} {m m' : Texels} {target : Option Surface}

/-- The colour target is a surface of the scene. -/
theorem mem_surfaces_color {s : Surface} (hcolor : q.color = some s) : s ∈ q.surfaces := by
  simp [surfaces, hcolor]

/-- The depth target is a surface of the scene. -/
theorem mem_surfaces_depth {s : Surface} (hdepth : q.depth = some s) : s ∈ q.surfaces := by
  simp [surfaces, hdepth]

/-- The stencil target is a surface of the scene. -/
theorem mem_surfaces_stencil {s : Surface} (hstencil : q.stencil = some s) :
    s ∈ q.surfaces := by
  simp [surfaces, hstencil]

/-- What a target shows under the fragment is one of its spots. -/
theorem mem_spots {s : Surface} {p : Spot} (hmem : s ∈ q.surfaces)
    (hspot : s.spot? f.x f.y = some p) : p ∈ q.spots f :=
  List.mem_filterMap.mpr ⟨s, hmem, hspot⟩

/-- What a target holds under the fragment is in the spots. -/
theorem stored_splice {α : Type} (htarget : ∀ s, target = some s → s ∈ q.surfaces)
    (read : Format → Bytes → Option α) :
    stored f (splice (q.spots f) m m') target read = stored f m target read := by
  cases target with
  | none => rfl
  | some s =>
    cases hspot : s.spot? f.x f.y with
    | none => simp [stored, hspot]
    | some p => simp [stored, hspot, read_splice (mem_spots (htarget s rfl) hspot)]

/-- Revising what a target shows is local. -/
theorem revise_local (htarget : ∀ s, target = some s → s ∈ q.surfaces)
    (change : Format → Bytes → Option Bytes) : Local (q.spots f) (revise f target change) := by
  intro m m'
  cases target with
  | none => rfl
  | some s =>
    cases hspot : s.spot? f.x f.y with
    | none => simp [revise, hspot]
    | some p =>
      have hmem := mem_spots (htarget s rfl) hspot
      simp only [revise, hspot, read_splice hmem, Option.bind_eq_bind, Option.bind_some]
      cases p.read m with
      | none => rfl
      | some bytes =>
        cases hchange : change p.format bytes with
        | none => simp [hchange]
        | some new => simp [hchange, write_splice hmem]

/-- The stored stencil value is in the spots. -/
theorem storedStencil_splice :
    q.storedStencil f (splice (q.spots f) m m') = q.storedStencil f m := by
  unfold storedStencil
  rw [stored_splice fun _ => mem_surfaces_stencil]

/-- The stored depth is in the spots. -/
theorem storedDepth_splice : q.storedDepth f (splice (q.spots f) m m') = q.storedDepth f m := by
  unfold storedDepth
  rw [stored_splice fun _ => mem_surfaces_depth]

/-- Which gate is shut is decided by the spots. -/
theorem barrier?_splice : q.barrier? f (splice (q.spots f) m m') = q.barrier? f m := by
  unfold barrier? tests
  rw [storedStencil_splice, storedDepth_splice]

/-- What becomes of a fragment is decided by its own texels. -/
theorem outcome_splice (shaded : Option Color) :
    q.outcome f (splice (q.spots f) m m') shaded = q.outcome f m shaded := by
  unfold outcome
  rw [barrier?_splice]

/-- Updating the stencil value is local. -/
theorem updateStencil_local (tested : Option UInt8) (op : StencilOp) :
    Local (q.spots f) (q.updateStencil f tested op) := by
  unfold Local updateStencil
  cases tested with
  | none => exact Local.some
  | some value => exact revise_local (fun _ => mem_surfaces_stencil) _

/-- Storing the depth is local. -/
theorem storeDepth_local : Local (q.spots f) (q.storeDepth f) := by
  unfold Local storeDepth
  by_cases hwrite : q.state.depthStencil.depthWrite = true
  · simp only [if_pos hwrite]
    exact revise_local (fun _ => mem_surfaces_depth) _
  · simp only [if_neg hwrite]
    exact Local.some

/-- Blending the colour is local. -/
theorem blendColor_local (shaded : Color) : Local (q.spots f) (q.blendColor f shaded) :=
  revise_local (fun _ => mem_surfaces_color) _

/-- **A fragment keeps to its own texels.** -/
theorem final_local (shaded : Option Color) :
    Local (q.spots f) fun m => q.final f m shaded := by
  intro m m'
  simp only [final, barrier?_splice, storedStencil_splice]
  cases q.barrier? f m with
  | some gate =>
    cases hupdate : gate.update with
    | some op => simpa only [hupdate] using updateStencil_local _ op m m'
    | none => simp only [hupdate, Option.map_some]
  | none =>
    cases shaded with
    | none => rfl
    | some color =>
      exact ((blendColor_local color).bind
        ((updateStencil_local (q.storedStencil f m) _).bind storeDepth_local)) m m'

end Scene

end PixelPipeline
