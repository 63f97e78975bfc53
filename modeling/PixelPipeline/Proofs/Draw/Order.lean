import Mathlib.Data.List.Pairwise
import PixelPipeline.Proofs.Draw.Locality
import PixelPipeline.Proofs.Draw.Row
import PixelPipeline.Proofs.Image.Contents

/-!
# Fragments of different positions

When the shader only looks at what is not drawn to, a row of fragments is a fold
of the reference over what the texels hold and what was counted
(`runAll_advances`).  Targets show different texels at different positions, also
when two of them are in one image, where they can only differ in height if they
differ in level (`spots_apart`).  So fragments of different positions can be
exchanged (`advance_comm`), and a row of them can be drawn in any order
(`advances_perm`).
-/

namespace PixelPipeline

/-! ## Shaders that do not look at the targets -/

/-- The textures differ in nothing but the bytes of these images. -/
structure Textures.Redrawn (images : List (Handle .image)) (t t' : Textures) : Prop where
  resources : t.resources.Redrawn t'.resources
  units : t'.units = t.units
  others : ∀ h, h ∉ images → t'.resources.images.get? h = t.resources.images.get? h

/-- The shader gives every fragment its colour, or discards it, whatever it
remembers and whatever these images of the textures hold. -/
def Shader.Paints {σ : Type} (shader : Shader σ) (images : List (Handle .image)) (t : Textures)
    (shade : Fragment → Option Color) : Prop :=
  ∀ f t' memory, t.Redrawn images t' → (shader.shade f t' memory).1 = .ok (shade f)

/-- The order of two outcomes does not matter to the counts. -/
theorem DrawStats.record_comm (stats : DrawStats) (first second : FragmentOutcome) :
    (stats.record first).record second = (stats.record second).record first := by
  cases first with
  | written => cases second <;> rfl
  | discarded reason => cases second <;> rfl

/-! ## Different positions -/

/-- The fragments lie at different positions. -/
def Fragment.Apart (f f' : Fragment) : Prop := (f.x, f.y) ≠ (f'.x, f'.y)

instance (f f' : Fragment) : Decidable (f.Apart f') :=
  inferInstanceAs (Decidable ((f.x, f.y) ≠ (f'.x, f'.y)))

instance : Std.Symm Fragment.Apart := ⟨fun _ _ => Ne.symm⟩

namespace Scene

variable {q : Scene} {f f' : Fragment}

/-- Targets that are one level of one image have one height. -/
def Even (q : Scene) : Prop :=
  ∀ s ∈ q.surfaces, ∀ s' ∈ q.surfaces, s.image = s'.image → s.level = s'.level →
    s.height = s'.height

/-- Targets show different texels at different positions. -/
theorem spots_apart (heven : q.Even) (hapart : f.Apart f') (h : Handle .image)
    (t : TexelIndex) (hamong : Spot.Among (q.spots f) h t) : ¬ Spot.Among (q.spots f') h t := by
  rintro ⟨p', hmem', himage', htexel'⟩
  obtain ⟨p, hmem, himage, htexel⟩ := hamong
  obtain ⟨s, hs, hspot⟩ := List.mem_filterMap.mp hmem
  obtain ⟨s', hs', hspot'⟩ := List.mem_filterMap.mp hmem'
  obtain ⟨hinside, rfl⟩ := Surface.spot?_eq_some hspot
  obtain ⟨hinside', rfl⟩ := Surface.spot?_eq_some hspot'
  obtain ⟨hlevel, -, hcolumn, hrow, -⟩ := TexelIndex.mk.inj (htexel.trans htexel'.symm)
  have hheight := heven s hs s' hs' (himage.trans himage'.symm) hlevel
  have hx : f.x = f'.x := by omega
  have hy : f.y = f'.y := by omega
  exact hapart (by rw [hx, hy])

/-! ## A row as a fold -/

/-- What a fragment makes of what the texels hold and of what was counted. -/
def advance (q : Scene) (shade : Fragment → Option Color) (s : Texels × DrawStats)
    (f : Fragment) : Texels × DrawStats :=
  ((q.final f s.1 (shade f)).getD s.1, s.2.record (q.outcome f s.1 (shade f)))

variable {shade : Fragment → Option Color}

/-- Fragments of different positions can be exchanged. -/
theorem advance_comm (heven : q.Even) (hapart : f.Apart f')
    (s : Texels × DrawStats) :
    q.advance shade (q.advance shade s f) f' = q.advance shade (q.advance shade s f') f := by
  have hlocal : ∀ (f : Fragment) (m m' : Texels),
      (q.final f (Texels.splice (q.spots f) m m') (shade f)).getD
          (Texels.splice (q.spots f) m m')
        = Texels.splice (q.spots f) ((q.final f m (shade f)).getD m) m' := by
    intro f m m'
    have hfinal := final_local (q := q) (f := f) (shade f) m m'
    simp only at hfinal
    rw [hfinal]
    cases q.final f m (shade f) with
    | none => rfl
    | some n => rfl
  -- neither fragment changes what decides about the other
  have houtcome : ∀ {f f' : Fragment}, f.Apart f' →
      q.outcome f' ((q.final f s.1 (shade f)).getD s.1) (shade f')
        = q.outcome f' s.1 (shade f') := by
    intro f f' hapart
    have hkept : Texels.splice (q.spots f') s.1 ((q.final f s.1 (shade f)).getD s.1)
        = (q.final f s.1 (shade f)).getD s.1 := by
      refine Texels.splice_of_agree fun h t hamong => ?_
      cases hfinal : q.final f s.1 (shade f) with
      | none => rfl
      | some n =>
        exact ((final_local (shade f)).frame hfinal
          (spots_apart heven (Ne.symm hapart) h t hamong)).symm
    rw [← hkept, outcome_splice]
  refine Prod.ext ?_ ?_
  · exact Texels.splice_commute (spots_apart heven hapart)
      (fun m => (q.final f m (shade f)).getD m) (fun m => (q.final f' m (shade f')).getD m)
      (hlocal f) (hlocal f') s.1
  · simp only [advance]
    rw [houtcome hapart, houtcome (Ne.symm hapart), DrawStats.record_comm]

/-- Fragments of different positions can be drawn in any order. -/
theorem advances_perm (heven : q.Even) {fragments fragments' : List Fragment}
    (hperm : fragments.Perm fragments') (hapart : fragments.Pairwise Fragment.Apart)
    (s : Texels × DrawStats) :
    fragments.foldl (q.advance shade) s = fragments'.foldl (q.advance shade) s := by
  refine hperm.foldl_eq' (fun f hf f' hf' s => ?_) s
  by_cases hsame : f = f'
  · rw [hsame]
  · exact advance_comm heven (hapart.forall hf hf' hsame) s

end Scene

namespace Stage

open Scene

variable {σ : Type} {g : Stage} {r r' : Resources} {q : Scene} {f : Fragment}

/-- A fragment is staged as before when images are redrawn. -/
theorem Staged.redrawn (hstaged : g.Staged r q f) (hredrawn : r.Redrawn r') :
    g.Staged r' q f where
  state := hstaged.state
  surfaces := hredrawn.surfaces ▸ hstaged.surfaces
  live := hredrawn.surfaces ▸ hstaged.live
  aimed hopen := (hstaged.aimed hopen).redrawn hredrawn

/-- A row of fragments is a fold of the reference. -/
theorem runAll_advances {u : BlendUnit} {shader : Shader σ} {shade : Fragment → Option Color}
    (hstaged : ∀ f, g.Staged r q f) (hunit : BlendCompiler.unitOf q.state.pipelineState = .ok u)
    (hpaints : shader.Paints q.images ⟨r, g.units⟩ shade) (fragments : List Fragment)
    (stats : DrawStats) (memory : σ) :
    let row := fragments.foldl (q.advance shade) (r.texels, stats)
    ∃ r' memory', g.runAll u shader fragments stats ⟨r, memory⟩ = (.ok row.2, ⟨r', memory'⟩) ∧
      r.Draws q.images row.1 r' := by
  induction fragments generalizing r stats memory with
  | nil => exact ⟨r, memory, rfl, .refl r⟩
  | cons f rest ih =>
    have hshaded := hpaints f ⟨r, g.units⟩ memory ⟨.refl r, rfl, fun _ _ => rfl⟩
    obtain ⟨m, r', hfinal, hdraws, hrun⟩ := run_follows (hstaged f) hunit hshaded
    have hpaints' : shader.Paints q.images ⟨r', g.units⟩ shade := fun f t memory ht =>
      hpaints f t memory ⟨hdraws.redrawn.trans ht.resources, ht.units,
        fun h hother => (ht.others h hother).trans (hdraws.others h hother)⟩
    have hadvance : q.advance shade (r.texels, stats) f
        = (r'.texels, stats.record (q.outcome f r.texels (shade f))) := by
      unfold advance
      rw [hfinal, hdraws.texels]
      rfl
    unfold runAll
    rw [hrun, List.foldl_cons, hadvance]
    obtain ⟨r'', memory'', hrest, hdraws'⟩ :=
      ih (fun f => (hstaged f).redrawn hdraws.redrawn) hpaints' _ _
    exact ⟨r'', memory'', hrest, hdraws.trans hdraws'⟩

end Stage

namespace Resources

variable {r r' r'' : Resources} {images : List (Handle .image)} {m : Texels}

/-- Steps of drawing that leave the same texels leave the same images. -/
theorem Draws.images_eq (hvalid : r.Valid)
    (hdraws : r.Draws images m r') (hdraws' : r.Draws images m r'') (h : Handle .image) :
    r'.images.get? h = r''.images.get? h := by
  by_cases hmem : h ∈ images
  · cases hget' : r'.images.get? h with
    | none =>
      have hframe := (hdraws.redrawn.frame h).trans (hdraws'.redrawn.frame h).symm
      rw [hget', Option.map_none] at hframe
      exact (Option.map_eq_none_iff.mp hframe.symm).symm
    | some i' =>
      obtain ⟨i, hget, hframe'⟩ := hdraws.redrawn.symm_image hget'
      obtain ⟨i'', hget'', hframe''⟩ := hdraws'.redrawn.image hget
      have htexels : ∀ t, i'.texel? t = i''.texel? t := by
        intro t
        have heq := congrFun (congrFun (hdraws.texels.trans hdraws'.texels.symm) h) t
        unfold Resources.texels at heq
        rw [hget', hget''] at heq
        exact heq
      have hstored'' := (hvalid.stored h i hget).of_frame hframe''
      rw [hget'', hstored''.eq_of_texels (hframe'.trans hframe''.symm) htexels]
  · rw [hdraws.others h hmem, hdraws'.others h hmem]

end Resources

end PixelPipeline
