import PixelPipeline.Proofs.Binary32.Cancel
import PixelPipeline.Proofs.Texture.Filtering
import PixelPipeline.Proofs.Texture.Taps

/-!
# Filters of uniform texels

Between equal values a filter has nothing to add: the differences of its taps are zero, and
so are the slopes and the coefficients of the cubic that are computed from them, in the
order in which they are (`lerp_offset`, `hermite_offset`).  What is left is the value at the
coordinate's texel, less at most the sign of a zero.

So a filter answers with the colour that all its fetches answer with (`Answers`).  Where
all taps of an axis lie outside a border, no tap of an axis around it fetches either, and
the filter is a constant whatever the fetch (`filter_eq_pure`).

* `filter_uniform` — a uniform image with a border of its colour looks uniform, and beyond
  a border there is nothing but the border.
-/

namespace PixelPipeline

open Binary32 (Within Equals zero)

/-! ## Equal colours -/

namespace Color

variable {border color : Color}

/-- The channels are equal as numbers. -/
def Equals (c d : Color) : Prop := ∀ i, Binary32.eq (c.get i) (d.get i) = true

instance (c d : Color) : Decidable (c.Equals d) :=
  inferInstanceAs (Decidable (∀ i, Binary32.eq (c.get i) (d.get i) = true))

/-- Equal colours are equal in every channel. -/
theorem Equals.channel (hequals : Equals color border) (i : Fin 4) :
    Binary32.Equals (color.get i) (border.get i) :=
  Binary32.equals_iff.mpr (hequals i)

/-- The colour is the same, down to the bits of every channel but a negative zero. -/
structure Copies (border color : Color) : Prop where
  equals : Equals color border
  same : ∀ i, border.get i ≠ -zero → color.get i = border.get i

theorem Copies.refl (hborder : ∀ i, (border.get i).isNaN = false) : Copies border border :=
  ⟨fun i => Binary32.equals_iff.mp (.refl (hborder i)), fun _ _ => rfl⟩

/-- Without negative zeros a copy has no other bits. -/
theorem Copies.eq (hcopies : Copies border color) (hnone : ∀ i, border.get i ≠ -zero) :
    color = border :=
  Vector.ext fun i hi => hcopies.same ⟨i, hi⟩ (hnone ⟨i, hi⟩)

end Color

/-! ## Taps with one value -/

section

variable {a b c d v w x frac : Binary32}

/-- What is added to the first of two equal values is zero. -/
theorem lerp_offset (hv : Equals v x) (hw : Equals w x) (hx : x.isFinite = true)
    (hfrac : frac.isFinite = true) : Equals ((w - v) * frac) zero :=
  Binary32.equals_mul_zero ((hw.trans hv.symm).sub (hv.isFinite hx)) hfrac

/-- **The coefficients of a cubic through equal values are zero.** -/
theorem hermite_offset (ha : Equals a x) (hb : Equals b x) (hc : Equals c x) (hd : Equals d x)
    (hx : Within 1 x) (hfrac : frac.isFinite = true) :
    ∃ offset, Equals offset zero ∧ hermite a b c d frac = b + offset := by
  have hfinite : x.isFinite = true := hx.isFinite (by decide)
  have htwo : Within 2 (Binary32.ofNat 2) := Binary32.within_ofNat (by decide)
  have hthree : Within 3 (Binary32.ofNat 3) := Binary32.within_ofNat (by decide)
  -- the slopes at both ends
  have hm : Equals (b - a) zero := (hb.trans ha.symm).sub (ha.isFinite hfinite)
  have hn : Equals (d - c) zero := (hd.trans hc.symm).sub (hc.isFinite hfinite)
  have hm2 := Binary32.equals_mul_zero hm (htwo.isFinite (by decide))
  -- the coefficient of the third power: twice the value, less twice the value
  have hf3 : Equals (b * Binary32.ofNat 2 + (b - a) - c * Binary32.ofNat 2 + (d - c)) zero := by
    obtain ⟨hb2, hdouble⟩ := hb.scale hx htwo (by decide) (by decide)
    have hc2 := (hc.scale hx htwo (by decide) (by decide)).1
    exact (((hb2.add_zero hm).trans hc2.symm).sub (hc2.isFinite hdouble)).add_zero hn
  -- that of the second: three times the value, with both signs
  have hf2 : Equals (b * -Binary32.ofNat 3 - (b - a) * Binary32.ofNat 2
      + c * Binary32.ofNat 3 - (d - c)
      + (b * Binary32.ofNat 2 + (b - a) - c * Binary32.ofNat 2 + (d - c)) * frac) zero := by
    obtain ⟨hb3, hnegative⟩ := hb.scale hx hthree.neg (by decide) (by decide)
    obtain ⟨hc3, hpositive⟩ := hc.scale hx hthree (by decide) (by decide)
    have hless := hb3.sub_zero hm2
    have hopposite := Binary32.value_mul_neg x (Binary32.ofNat 3)
    have hsum := Binary32.equals_zero_of_sum (hless.isFinite hnegative) (hc3.isFinite hpositive)
      (by rw [hless.value, hc3.value, hopposite]; omega)
    exact (hsum.sub_zero hn).add_zero (Binary32.equals_mul_zero hf3 hfrac)
  have hf1 := hm.add_zero (Binary32.equals_mul_zero hf2 hfrac)
  exact ⟨_, Binary32.equals_mul_zero hf1 hfrac, rfl⟩

end

section Combine

variable {mode : FilterMode} {frac : Binary32} {taps : List Color} {border c : Color}

/-- Of taps with one colour an axis makes one of them, or one of them and zeros. -/
theorem FilterMode.combine_offset (hlength : taps.length = mode.offsets.length)
    (hsmall : c.Within 1) (hfrac : frac.isFinite = true)
    (htaps : ∀ tap ∈ taps, tap.Equals c) (i : Fin 4) :
    ∃ tap ∈ taps, (mode.combine frac taps).get i = tap.get i ∨
      ∃ offset, Equals offset zero ∧ (mode.combine frac taps).get i = tap.get i + offset := by
  have hfinite : (c.get i).isFinite = true := (hsmall i).isFinite (by decide)
  cases mode with
  | nearest =>
    obtain ⟨v, rfl⟩ := List.length_eq_one_iff.mp hlength
    exact ⟨v, List.mem_cons_self, .inl rfl⟩
  | linear =>
    obtain ⟨v, w, rfl⟩ := List.length_eq_two.mp hlength
    have hoffset := lerp_offset ((htaps v (by simp)).channel i) ((htaps w (by simp)).channel i)
      hfinite hfrac
    exact ⟨v, by simp, .inr ⟨_, hoffset, Color.get_ofFn ..⟩⟩
  | cubic =>
    obtain ⟨u, v, w, x, rfl⟩ : ∃ u v w x, taps = [u, v, w, x] := by
      match taps, hlength with
      | [u, v, w, x], _ => exact ⟨u, v, w, x, rfl⟩
    obtain ⟨offset, hzero, hvalue⟩ := hermite_offset ((htaps u (by simp)).channel i)
      ((htaps v (by simp)).channel i) ((htaps w (by simp)).channel i)
      ((htaps x (by simp)).channel i) (hsmall i) hfrac
    exact ⟨v, by simp, .inr ⟨offset, hzero, (Color.get_ofFn ..).trans hvalue⟩⟩

/-- **Taps of one colour combine to that colour.** -/
theorem FilterMode.combine_equals (hlength : taps.length = mode.offsets.length)
    (hsmall : c.Within 1) (hfrac : frac.isFinite = true)
    (htaps : ∀ tap ∈ taps, tap.Equals c) : (mode.combine frac taps).Equals c := by
  intro i
  obtain ⟨tap, hmem, hvalue⟩ := combine_offset hlength hsmall hfrac htaps i
  have htap := (htaps tap hmem).channel i
  refine Binary32.equals_iff.mp ?_
  rcases hvalue with hsame | ⟨offset, hzero, hsum⟩
  · rw [hsame]
    exact htap
  · rw [hsum]
    exact htap.add_zero hzero

/-- Copies of a colour combine to a copy. -/
theorem FilterMode.combine_copies (hlength : taps.length = mode.offsets.length)
    (hsmall : border.Within 1) (hfrac : frac.isFinite = true)
    (htaps : ∀ tap ∈ taps, Color.Copies border tap) :
    Color.Copies border (mode.combine frac taps) := by
  have hequals : ∀ tap ∈ taps, tap.Equals border := fun tap hmem => (htaps tap hmem).equals
  refine ⟨combine_equals hlength hsmall hfrac hequals, fun i hne => ?_⟩
  obtain ⟨tap, hmem, hvalue⟩ := combine_offset hlength hsmall hfrac hequals i
  have hsame := (htaps tap hmem).same i hne
  rcases hvalue with htap | ⟨offset, hzero, hsum⟩
  · rw [htap, hsame]
  · rw [hsum, hsame, Binary32.add_zero_eq (hsmall i).number hzero hne]

end Combine

/-! ## Filters that answer -/

section

variable {σ ε α β : Type} {I : σ → Prop} {P : α → Prop} {Q : β → Prop}

/-- Started in a state with the invariant, the computation answers with the property and
keeps the invariant. -/
def Answers (I : σ → Prop) (P : α → Prop) (x : StateT σ (Except ε) α) : Prop :=
  ∀ s, I s → ∃ a s', x s = .ok (a, s') ∧ P a ∧ I s'

variable {x : StateT σ (Except ε) α}

/-- An answer with the property answers with it. -/
theorem Answers.pure {a : α} (ha : P a) : Answers I P (Pure.pure a : StateT σ (Except ε) α) :=
  fun s hs => ⟨a, s, rfl, ha, hs⟩

/-- Computations in sequence answer if each of them does. -/
theorem Answers.bind {f : α → StateT σ (Except ε) β} (hfirst : Answers I P x)
    (hrest : ∀ a, P a → Answers I Q (f a)) : Answers I Q (x >>= f) := by
  intro s hs
  obtain ⟨a, s', hx, ha, hs'⟩ := hfirst s hs
  obtain ⟨b, s'', hf, hb⟩ := hrest a ha s' hs'
  refine ⟨b, s'', ?_, hb⟩
  change (x s >>= fun p => f p.1 p.2) = _
  rw [hx]
  exact hf

/-- Answering with a property is kept by sequences. -/
theorem Answers.composes :
    PredicateComposes fun α P (x : StateT σ (Except ε) α) => Answers I P x :=
  ⟨Answers.pure, Answers.bind⟩

end

/-! ## Filters that fetch nothing -/

/-- Every tap of the axis lies outside a border. -/
def AxisCoord.Beyond (mode : FilterMode) (axis : AxisCoord) : Prop :=
  axis.mode = .clampToBorder ∧
    ∀ offset ∈ mode.offsets, ¬ (0 ≤ axis.tap offset ∧ axis.tap offset < axis.size)

/-- No tap of an axis that lies beyond has an index. -/
theorem AxisCoord.Beyond.tapIndex? {mode : FilterMode} {axis : AxisCoord}
    (hbeyond : axis.Beyond mode) {offset : Int} (hmem : offset ∈ mode.offsets) :
    axis.tapIndex? offset = none := by
  unfold AxisCoord.tapIndex? AddressMode.wrap
  rw [hbeyond.1]
  exact if_neg (hbeyond.2 offset hmem)

section Constant

variable {mode : FilterMode} {border : Color} {axis : AxisCoord} {inner axes : List AxisCoord}

/-- What answers without effect for every element does so for the list. -/
theorem mapM_eq_pure {m : Type → Type} [Monad m] [LawfulMonad m] {α β : Type} {l : List α}
    {f : α → m β} {g : α → β} (heq : ∀ a ∈ l, f a = pure (g a)) : l.mapM f = pure (l.map g) := by
  induction l with
  | nil => rfl
  | cons a rest ih =>
    rw [List.mapM_cons, heq a List.mem_cons_self,
      ih fun b hmem => heq b (List.mem_cons_of_mem _ hmem), pure_bind, pure_bind, List.map_cons]

/-- Constant taps make a constant filter. -/
theorem filter_cons_eq_pure {m : Type → Type} [Monad m] [LawfulMonad m]
    {fetch : List Int → m Color} {chosen : List Int} {color : Color}
    (hinner : ∀ offset ∈ mode.offsets, ∀ index, axis.tapIndex? offset = some index →
      filter mode border fetch inner (chosen ++ [index]) = pure color) :
    filter mode border fetch (axis :: inner) chosen = pure (mode.combine axis.frac
      (mode.offsets.map fun offset => (axis.tapIndex? offset).elim border fun _ => color)) := by
  unfold PixelPipeline.filter
  rw [mapM_eq_pure (g := fun offset => (axis.tapIndex? offset).elim border fun _ => color),
    pure_bind]
  intro offset hoffset
  cases hindex : axis.tapIndex? offset with
  | none => rfl
  | some index => exact hinner offset hoffset index hindex

/-- **Beyond a border on some axis there is only the border**, and nothing is fetched. -/
theorem filter_eq_pure (hsmall : border.Within 1)
    (hfracs : ∀ axis ∈ axes, axis.frac.isFinite = true)
    (hbeyond : ∃ axis ∈ axes, axis.Beyond mode) :
    ∃ color, Color.Copies border color ∧
      ∀ {m : Type → Type} [Monad m] [LawfulMonad m] (fetch : List Int → m Color)
        (chosen : List Int), filter mode border fetch axes chosen = pure color := by
  have hborder : Color.Copies border border := .refl fun i => (hsmall i).number
  induction axes with
  | nil =>
    obtain ⟨axis, hmem, -⟩ := hbeyond
    exact (List.not_mem_nil hmem).elim
  | cons axis inner ih =>
    -- a tap of the outermost axis is outside, or filters the inner axes to a constant
    obtain ⟨color, hcopies, hinner⟩ : ∃ color, Color.Copies border color ∧
        ∀ {m : Type → Type} [Monad m] [LawfulMonad m] (fetch : List Int → m Color)
          (chosen : List Int), ∀ offset ∈ mode.offsets, ∀ index,
          axis.tapIndex? offset = some index →
            filter mode border fetch inner (chosen ++ [index]) = pure color := by
      obtain ⟨outside, hmem, houtside⟩ := hbeyond
      rcases List.mem_cons.mp hmem with rfl | hinside
      · refine ⟨border, hborder, fun fetch chosen offset hoffset index hindex => ?_⟩
        rw [houtside.tapIndex? hoffset] at hindex
        cases hindex
      · obtain ⟨color, hcopies, hfilter⟩ := ih
          (fun axis hmem => hfracs axis (List.mem_cons_of_mem _ hmem)) ⟨outside, hinside, houtside⟩
        exact ⟨color, hcopies, fun fetch chosen offset _ index _ =>
          hfilter fetch (chosen ++ [index])⟩
    refine ⟨_, ?_, fun fetch chosen => filter_cons_eq_pure (hinner fetch chosen)⟩
    refine FilterMode.combine_copies (List.length_map ..) hsmall
      (hfracs axis List.mem_cons_self) fun tap hmem => ?_
    obtain ⟨offset, -, rfl⟩ := List.mem_map.mp hmem
    cases axis.tapIndex? offset with
    | none => exact hborder
    | some index => exact hcopies

end Constant

/-- **A uniform image looks uniform, and beyond a border there is nothing but the border.**
Where the texels and the border are one colour, of finite channels that are at most one in
magnitude, the filter answers with that colour.  Where all taps of some axis lie outside a
border, it answers with the border colour and does not fetch, whatever fetching would do. -/
theorem filter_uniform {mode : FilterMode} {border : Color} {axes : List AxisCoord}
    (hfracs : ∀ axis ∈ axes, axis.frac.isFinite = true) :
    (∀ (c : Color), (∀ i, Binary32.le (c.get i).abs Binary32.one = true) → border.Equals c →
      (∀ size ∈ AxisCoord.sizes axes, 0 < size) →
      ∀ {σ ε : Type} (I : σ → Prop) (fetch : List Int → StateT σ (Except ε) Color),
        (∀ indices, Inside (AxisCoord.sizes axes) indices → ∀ s, I s →
          ∃ texel s', fetch indices s = .ok (texel, s') ∧ texel.Equals c ∧ I s') →
        ∀ s, I s → ∃ color s', filter mode border fetch axes [] s = .ok (color, s') ∧
          color.Equals c ∧ I s') ∧
    ((∀ i, Binary32.le (border.get i).abs Binary32.one = true) →
      (∃ axis ∈ axes, axis.Beyond mode) →
      ∃ color, Color.Copies border color ∧
        ∀ {m : Type → Type} [Monad m] [LawfulMonad m] (fetch : List Int → m Color),
          filter mode border fetch axes [] = pure color) := by
  constructor
  · intro c hsmall hborder hsizes σ ε I fetch hfetch
    exact Answers.composes.filter (P := fun _ color => color.Equals c) (fun _ => hborder)
      (fun axis hmem _ _ taps hlength htaps => FilterMode.combine_equals hlength
        (fun i => Binary32.within_of_le_abs (hsmall i)) (hfracs axis hmem) htaps)
      (fun indices hinside => hfetch indices (hinside hsizes))
  · intro hsmall hbeyond
    obtain ⟨color, hcopies, hconstant⟩ := filter_eq_pure
      (fun i => Binary32.within_of_le_abs (hsmall i)) hfracs hbeyond
    exact ⟨color, hcopies, fun fetch => hconstant fetch []⟩

/-- A grey image beside its grey border, and a coordinate beyond it, where no fetch answers. -/
theorem filter_uniform_grey :
    (∃ color s', filter .cubic (.mk .half .half .half .one)
        (fun _ => (pure (.mk .half .half .half .one) : StateT Unit (Except Unit) Color))
        [⟨-1, .half, 3, .clampToBorder⟩, ⟨7, .half, 2, .mirroredRepeat⟩] [] () = .ok (color, s') ∧
      color.Equals (.mk .half .half .half .one) ∧ True) ∧
    filter .cubic (.mk .half .half .half .one) (fun _ => (.error () : Except Unit Color))
        [⟨7, .half, 2, .mirroredRepeat⟩, ⟨9, .half, 3, .clampToBorder⟩] [] =
      .ok (.mk .half .half .half .one) := by
  constructor
  · exact (filter_uniform (by decide)).1 (.mk .half .half .half .one) (by decide +kernel)
      (by decide +kernel) (by decide) (fun _ => True) _
      (fun _ _ s _ => ⟨_, s, rfl, by decide +kernel, trivial⟩) () trivial
  · obtain ⟨color, hcopies, hfilter⟩ := (@filter_uniform .cubic (.mk .half .half .half .one)
      [⟨7, .half, 2, .mirroredRepeat⟩, ⟨9, .half, 3, .clampToBorder⟩] (by decide)).2
      (by decide +kernel) ⟨_, List.mem_cons_of_mem _ List.mem_cons_self, rfl, by decide⟩
    rw [hfilter, hcopies.eq (by decide +kernel)]
    rfl

end PixelPipeline
