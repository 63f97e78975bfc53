import PixelPipeline.Proofs.Binary32.Within
import PixelPipeline.Proofs.Texture.Taps
import PixelPipeline.Texture.Sample

/-!
# Bounds of filtered colours

A filter subtracts, multiplies and adds its taps.  From taps of bounded magnitude it
makes a colour of bounded magnitude, at most 23 times as large an axis
(`FilterMode.combine_within`), because its fractions are at most one
(`AxisCoord.within_frac`): neither NaN nor infinity appears.

`Keeps` is what a computation with a state says of its answer, if it gives one.
Fetches that answer with bounded colours make filters that do (`Keeps.filter`).
-/

namespace PixelPipeline

open Binary32 (Within InUnit)

/-! ## Colours -/

namespace Color

variable {color : Color} {bound bound' : Nat}

/-- Every channel is a number of at most that magnitude. -/
def Within (bound : Nat) (color : Color) : Prop := ∀ i, Binary32.Within bound (color.get i)

/-- Every channel lies between zero and one. -/
def InUnit (color : Color) : Prop := ∀ i, Binary32.InUnit (color.get i)

/-- Every channel of transparent black is zero. -/
theorem get_transparent (i : Fin 4) : transparent.get i = Binary32.zero := by
  unfold transparent Vector.get
  simp

theorem Within.mono (hcolor : color.Within bound) (hle : bound ≤ bound') : color.Within bound' :=
  fun i => (hcolor i).mono hle

end Color

/-! ## One axis -/

/-- Zero lies in the unit interval. -/
theorem Binary32.inUnit_zero : InUnit Binary32.zero := ⟨by decide +kernel, by decide +kernel⟩

/-- One lies in the unit interval. -/
theorem Binary32.inUnit_one : InUnit Binary32.one := ⟨by decide +kernel, by decide +kernel⟩

/-- Zero has any bound. -/
theorem Binary32.within_zero {bound : Nat} : Within bound Binary32.zero := ⟨rfl, trivial⟩

/-- The fraction of a coordinate is at most one, whatever the coordinate. -/
theorem AxisCoord.within_frac (coord : Binary32) (size : Nat) (mode : AddressMode) :
    Within 1 (AxisCoord.ofCoord coord size mode).frac := by
  unfold AxisCoord.ofCoord
  simp only
  split
  · rename_i hfinite
    exact Binary32.within_sub_floor hfinite
  · exact Binary32.within_zero

section Combine

variable {bound : Nat} {a b c d v w frac : Binary32}

/-- Linear interpolation keeps to three times the bound. -/
theorem lerp_within (hlt : 3 * bound < 2 ^ 24) (hpos : 0 < bound) (hv : Within bound v)
    (hw : Within bound w) (hfrac : Within 1 frac) : Within (3 * bound) (lerp v w frac) := by
  have hdifference : Within (bound + bound) (w - v) := hw.sub hv (by omega) (by omega)
  have hscaled : Within ((bound + bound) * 1) ((w - v) * frac) :=
    hdifference.mul hfrac (by omega) (by omega)
  have hsum : Within (bound + (bound + bound) * 1) (lerp v w frac) :=
    hv.add hscaled (by omega) (by omega)
  exact hsum.mono (by omega)

/-- Cubic interpolation keeps to 23 times the bound. -/
theorem hermite_within (hlt : 23 * bound < 2 ^ 24) (hpos : 0 < bound) (ha : Within bound a)
    (hb : Within bound b) (hc : Within bound c) (hd : Within bound d) (hfrac : Within 1 frac) :
    Within (23 * bound) (hermite a b c d frac) := by
  have htwo : Within 2 (Binary32.ofNat 2) := Binary32.within_ofNat (by decide)
  have hthree : Within 3 (Binary32.ofNat 3) := Binary32.within_ofNat (by decide)
  -- the slopes at both ends
  have hm : Within (bound + bound) (b - a) := hb.sub ha (by omega) (by omega)
  have hn : Within (bound + bound) (d - c) := hd.sub hc (by omega) (by omega)
  have hf3 := (((hb.mul htwo (by omega) (by omega)).add hm (by omega) (by omega)).sub
    (hc.mul htwo (by omega) (by omega)) (by omega) (by omega)).add hn (by omega) (by omega)
  have hf2 := ((((hb.mul hthree.neg (by omega) (by omega)).sub
    (hm.mul htwo (by omega) (by omega)) (by omega) (by omega)).add
    (hc.mul hthree (by omega) (by omega)) (by omega) (by omega)).sub hn (by omega) (by omega)).add
    (hf3.mul hfrac (by omega) (by omega)) (by omega) (by omega)
  have hf1 := hm.add (hf2.mul hfrac (by omega) (by omega)) (by omega) (by omega)
  have hvalue := hb.add (hf1.mul hfrac (by omega) (by omega)) (by omega) (by omega)
  exact hvalue.mono (by omega)

end Combine

/-- **An axis makes colours at most 23 times as large.** -/
theorem FilterMode.combine_within {mode : FilterMode} {bound : Nat} {frac : Binary32}
    {taps : List Color} (hlt : 23 * bound < 2 ^ 24) (hpos : 0 < bound)
    (htaps : ∀ tap ∈ taps, tap.Within bound) (hfrac : Within 1 frac) :
    (mode.combine frac taps).Within (23 * bound) := by
  unfold FilterMode.combine
  split
  · rename_i v
    exact (htaps v List.mem_cons_self).mono (by omega)
  · rename_i v w
    intro i
    rw [Color.get_ofFn]
    exact (lerp_within (by omega) hpos (htaps v (by simp) i) (htaps w (by simp) i) hfrac).mono
      (by omega)
  · rename_i u v w x
    intro i
    rw [Color.get_ofFn]
    exact hermite_within hlt hpos (htaps u (by simp) i) (htaps v (by simp) i)
      (htaps w (by simp) i) (htaps x (by simp) i) hfrac
  · intro i
    rw [Color.get_transparent]
    exact Binary32.within_zero

/-! ## Answers of computations -/

section

variable {σ ε α β : Type} {I : σ → Prop} {P : α → Prop} {Q : β → Prop}

/-- Started in a state with the invariant, the computation fails, or answers with the
property and keeps the invariant. -/
def Keeps (I : σ → Prop) (P : α → Prop) (x : StateT σ (Except ε) α) : Prop :=
  ∀ s a s', I s → x s = .ok (a, s') → P a ∧ I s'

variable {x : StateT σ (Except ε) α}

/-- An answer with the property keeps it. -/
theorem Keeps.pure {a : α} (ha : P a) : Keeps I P (Pure.pure a : StateT σ (Except ε) α) := by
  intro s a' s' hs hrun
  obtain ⟨rfl, rfl⟩ := Prod.mk.inj (Except.ok.inj hrun)
  exact ⟨ha, hs⟩

/-- Computations in sequence keep properties if each of them does. -/
theorem Keeps.bind {f : α → StateT σ (Except ε) β} (hfirst : Keeps I P x)
    (hrest : ∀ a, P a → Keeps I Q (f a)) : Keeps I Q (x >>= f) := by
  intro s b s' hs hrun
  have hparts : (x s >>= fun p => f p.1 p.2) = .ok (b, s') := hrun
  cases hx : x s with
  | error fault =>
    rw [hx] at hparts
    cases hparts
  | ok p =>
    rw [hx] at hparts
    obtain ⟨ha, hs''⟩ := hfirst s p.1 p.2 hs hx
    exact hrest p.1 ha p.2 b s' hs'' hparts

/-- Keeping a property is kept by sequences. -/
theorem Keeps.composes :
    PredicateComposes fun α P (x : StateT σ (Except ε) α) => Keeps I P x :=
  ⟨Keeps.pure, Keeps.bind⟩

/-- **Bounded fetches make bounded filters.** -/
theorem Keeps.filter {mode : FilterMode} {border : Color} {bound : Nat}
    {fetch : List Int → StateT σ (Except ε) Color} {axes : List AxisCoord} {chosen : List Int}
    (hpos : 0 < bound) (hlt : 23 ^ axes.length * bound < 2 ^ 24)
    (haxes : ∀ axis ∈ axes, Within 1 axis.frac) (hborder : border.Within bound)
    (hfetch : ∀ indices, Keeps I (Color.Within bound) (fetch indices)) :
    Keeps I (Color.Within (23 ^ axes.length * bound)) (filter mode border fetch axes chosen) := by
  have hscale : ∀ k, 0 < 23 ^ k := fun k => Nat.pow_pos (by decide)
  refine Keeps.composes.filter (P := fun k => Color.Within (23 ^ k * bound))
    (fun k => hborder.mono (Nat.le_mul_of_pos_left bound (hscale k)))
    (fun axis hmem k hk taps _ htaps => ?_) (fun indices _ => ?_)
  · have hgrowth : 23 ^ (k + 1) * bound = 23 * (23 ^ k * bound) := by
      rw [Nat.pow_succ', Nat.mul_assoc]
    have hle : 23 ^ (k + 1) * bound ≤ 23 ^ axes.length * bound :=
      Nat.mul_le_mul_right bound (Nat.pow_le_pow_right (by decide) hk)
    rw [hgrowth] at hle ⊢
    exact FilterMode.combine_within (by omega) (Nat.mul_pos (hscale k) hpos) htaps
      (haxes axis hmem)
  · rw [Nat.pow_zero, Nat.one_mul]
    exact hfetch (chosen ++ indices)

end

end PixelPipeline
