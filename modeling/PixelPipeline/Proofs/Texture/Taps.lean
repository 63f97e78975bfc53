import Mathlib.Data.List.Forall2
import PixelPipeline.Texture.Filter

/-!
# Taps stay inside the axes

Every address mode answers with an index of the axis (`AddressMode.wrap_range`),
however far away the coordinate lies, so a filter only ever fetches at one index
of each axis.

A filter is put together from its fetches by sequencing alone.  What sequences
keep, a property of answers (`PredicateComposes`) or a relation between two
monads (`RelationComposes`), is therefore kept by filters.

`InStep` relates two computations that succeed with the same answer and keep
their states related.  `noted` is a fetch that notes what it is asked for: in
step with the fetch itself it tells which fetches a filter makes.
-/

namespace PixelPipeline

/-! ## One axis -/

/-- **Every index that a mode gives lies in the axis.** -/
theorem AddressMode.wrap_range {mode : AddressMode} {size v index : Int} (hsize : 0 < size)
    (hwrap : mode.wrap size v = some index) : 0 ≤ index ∧ index < size := by
  cases mode with
  | clampToEdge =>
    obtain rfl := Option.some.inj hwrap
    omega
  | clampToBorder =>
    unfold wrap at hwrap
    simp only [Option.ite_none_right_eq_some] at hwrap
    obtain ⟨hinside, heq⟩ := hwrap
    exact Option.some.inj heq ▸ hinside
  | wrapAround =>
    obtain rfl := Option.some.inj hwrap
    exact ⟨Int.emod_nonneg v (by omega), Int.emod_lt_of_pos v hsize⟩
  | mirroredRepeat =>
    obtain rfl := Option.some.inj hwrap
    have hperiod : 0 < 2 * size := by omega
    have hnonneg := Int.emod_nonneg v (Int.ne_of_gt hperiod)
    have hlt := Int.emod_lt_of_pos v hperiod
    by_cases hrising : v % (2 * size) < size
    · rw [if_pos hrising]
      exact ⟨hnonneg, hrising⟩
    · rw [if_neg hrising]
      omega
  | mirrorClampToEdge =>
    obtain rfl := Option.some.inj hwrap
    -- a coordinate and its reflection are not both negative
    have hreflected : 0 ≤ if 0 ≤ v then v else -(1 + v) := by
      by_cases hv : 0 ≤ v
      · rw [if_pos hv]
        exact hv
      · rw [if_neg hv]
        omega
    omega

/-- The number of texels survives the signed word as long as it fits one. -/
theorem AxisCoord.size_ofCoord {size : Nat} (hsize : size < 2 ^ 31) (coord : Binary32)
    (mode : AddressMode) : (AxisCoord.ofCoord coord size mode).size = size := by
  unfold AxisCoord.ofCoord
  simp only
  rw [Int.bmod_eq_of_le] <;> omega

/-- One index below each size. -/
def Inside (sizes indices : List Int) : Prop :=
  List.Forall₂ (fun size index => 0 ≤ index ∧ index < size) sizes indices

/-- The sizes of axes. -/
def AxisCoord.sizes (axes : List AxisCoord) : List Int := axes.map AxisCoord.size

/-- The property holds of every place that taps on further axes lead to.  If all of these axes
have places, only those inside count. -/
def OnTaps (axes : List AxisCoord) (chosen : List Int) (P : List Int → Prop) : Prop :=
  ∀ indices, ((∀ size ∈ AxisCoord.sizes axes, 0 < size) →
    Inside (AxisCoord.sizes axes) indices) → P (chosen ++ indices)

namespace OnTaps

variable {axis : AxisCoord} {inner : List AxisCoord} {chosen : List Int} {P : List Int → Prop}

/-- With no axes left the path is the one chosen. -/
theorem here (h : OnTaps [] chosen P) : P chosen := by
  have hnone := h [] fun _ => .nil
  rwa [List.append_nil] at hnone

/-- A tap on the first axis leads to taps on the others. -/
theorem tap (h : OnTaps (axis :: inner) chosen P) {offset index : Int}
    (hindex : axis.tapIndex? offset = some index) : OnTaps inner (chosen ++ [index]) P := by
  intro indices hinside
  rw [List.append_assoc]
  refine h (index :: indices) fun hsizes => .cons ?_ (hinside fun size hmem =>
    hsizes size (List.mem_cons_of_mem _ hmem))
  exact AddressMode.wrap_range (hsizes axis.size List.mem_cons_self) hindex

end OnTaps

/-! ## Sequences -/

section

variable {m n : Type → Type} [Monad m] [Monad n]

/-- What is said of the answers of computations holds of constants, and of sequences if it
does of their parts. -/
structure PredicateComposes (T : ∀ α : Type, (α → Prop) → m α → Prop) : Prop where
  pure : ∀ {α : Type} {P : α → Prop} {a : α}, P a → T α P (Pure.pure a)
  bind : ∀ {α β : Type} {P : α → Prop} {Q : β → Prop} {x : m α} {f : α → m β},
    T α P x → (∀ a, P a → T β Q (f a)) → T β Q (x >>= f)

/-- The relation holds of equal constants, and of sequences if it does of their parts. -/
structure RelationComposes (R : ∀ α : Type, m α → n α → Prop) : Prop where
  pure : ∀ {α : Type} (a : α), R α (Pure.pure a) (Pure.pure a)
  bind : ∀ {α β : Type} {x : m α} {y : n α} {f : α → m β} {g : α → n β},
    R α x y → (∀ a, R β (f a) (g a)) → R β (x >>= f) (y >>= g)

variable [LawfulMonad m] [LawfulMonad n] {T : ∀ α : Type, (α → Prop) → m α → Prop}
  {R : ∀ α : Type, m α → n α → Prop} {α β : Type} {mode : FilterMode} {border : Color}
  {axes : List AxisCoord} {chosen : List Int} {fetch : List Int → m Color}
  {fetch' : List Int → n Color}

/-- A property that sequences keep is kept element by element. -/
theorem PredicateComposes.mapM (hT : PredicateComposes T) {Q : β → Prop} {f : α → m β}
    (hf : ∀ a, T β Q (f a)) (l : List α) :
    T (List β) (fun bs => bs.length = l.length ∧ ∀ b ∈ bs, Q b) (l.mapM f) := by
  induction l with
  | nil =>
    rw [List.mapM_nil]
    exact hT.pure ⟨rfl, fun b hmem => (List.not_mem_nil hmem).elim⟩
  | cons a rest ih =>
    rw [List.mapM_cons]
    refine hT.bind (hf a) fun b hb => hT.bind ih fun bs hbs => hT.pure ⟨?_, fun b' hmem => ?_⟩
    · rw [List.length_cons, List.length_cons, hbs.1]
    · rcases List.mem_cons.mp hmem with rfl | hrest
      · exact hb
      · exact hbs.2 b' hrest

/-- A relation that sequences keep is kept element by element. -/
theorem RelationComposes.mapM (hR : RelationComposes R) {f : α → m β} {g : α → n β}
    (hf : ∀ a, R β (f a) (g a)) (l : List α) : R (List β) (l.mapM f) (l.mapM g) := by
  induction l with
  | nil =>
    rw [List.mapM_nil, List.mapM_nil]
    exact hR.pure []
  | cons a rest ih =>
    rw [List.mapM_cons, List.mapM_cons]
    exact hR.bind (hf a) fun b => hR.bind ih fun bs => hR.pure (b :: bs)

/-- **What combining an axis makes of its taps, filtering makes of fetches.**  The property
may depend on how many axes there are to go. -/
theorem PredicateComposes.filter (hT : PredicateComposes T) {P : Nat → Color → Prop}
    (hborder : ∀ k, P k border)
    (hcombine : ∀ axis ∈ axes, ∀ k < axes.length, ∀ taps : List Color,
      taps.length = mode.offsets.length → (∀ tap ∈ taps, P k tap) →
        P (k + 1) (mode.combine axis.frac taps))
    (hfetch : OnTaps axes chosen fun indices => T Color (P 0) (fetch indices)) :
    T Color (P axes.length) (filter mode border fetch axes chosen) := by
  induction axes generalizing chosen with
  | nil => exact hfetch.here
  | cons axis inner ih =>
    unfold PixelPipeline.filter
    refine hT.bind (hT.mapM ?_ mode.offsets) fun taps htaps => hT.pure
      (hcombine axis List.mem_cons_self _ (Nat.lt_succ_self _) taps htaps.1 htaps.2)
    intro offset
    cases hindex : axis.tapIndex? offset with
    | none => exact hT.pure (hborder _)
    | some index =>
      exact ih (fun axis hmem k hk => hcombine axis (List.mem_cons_of_mem _ hmem) k
        (Nat.lt_succ_of_lt hk)) (hfetch.tap hindex)

/-- **Filters are related if their fetches are.** -/
theorem RelationComposes.filter (hR : RelationComposes R)
    (hfetch : OnTaps axes chosen fun indices => R Color (fetch indices) (fetch' indices)) :
    R Color (filter mode border fetch axes chosen) (filter mode border fetch' axes chosen) := by
  induction axes generalizing chosen with
  | nil => exact hfetch.here
  | cons axis inner ih =>
    unfold PixelPipeline.filter
    refine hR.bind (hR.mapM ?_ mode.offsets) fun taps => hR.pure (mode.combine axis.frac taps)
    intro offset
    cases hindex : axis.tapIndex? offset with
    | none => exact hR.pure border
    | some index => exact ih (hfetch.tap hindex)

end

/-! ## Computations in step -/

section

variable {σ τ ε : Type} {R : σ → τ → Prop}

/-- Both computations succeed, with the same answer and related states. -/
def InStep {α : Type} (R : σ → τ → Prop) (x : StateT σ (Except ε) α) (y : StateT τ (Except ε) α) :
    Prop :=
  ∀ s t, R s t → ∃ a s' t', x s = .ok (a, s') ∧ y t = .ok (a, t') ∧ R s' t'

variable {α β : Type} {x : StateT σ (Except ε) α} {y : StateT τ (Except ε) α}

/-- An answer is in step with itself. -/
theorem InStep.pure (a : α) :
    InStep R (Pure.pure a : StateT σ (Except ε) α) (Pure.pure a : StateT τ (Except ε) α) :=
  fun s t hR => ⟨a, s, t, rfl, rfl, hR⟩

/-- Computations in sequence stay in step if each of them does. -/
theorem InStep.bind {f : α → StateT σ (Except ε) β} {g : α → StateT τ (Except ε) β}
    (hfirst : InStep R x y) (hrest : ∀ a, InStep R (f a) (g a)) :
    InStep R (x >>= f) (y >>= g) := by
  intro s t hR
  obtain ⟨a, s', t', hx, hy, hR'⟩ := hfirst s t hR
  obtain ⟨b, s'', t'', hf, hg, hR''⟩ := hrest a s' t' hR'
  refine ⟨b, s'', t'', ?_, ?_, hR''⟩
  · change (x s >>= fun p => f p.1 p.2) = _
    rw [hx]
    exact hf
  · change (y t >>= fun p => g p.1 p.2) = _
    rw [hy]
    exact hg

/-- Staying in step is kept by sequences. -/
theorem InStep.composes :
    RelationComposes fun α (x : StateT σ (Except ε) α) (y : StateT τ (Except ε) α) =>
      InStep R x y :=
  ⟨InStep.pure, InStep.bind⟩

/-- A fetch that also notes the indices it is given. -/
def noted (fetch : List Int → StateT σ (Except ε) Color) (indices : List Int) :
    StateT (List (List Int) × σ) (Except ε) Color :=
  fun (log, s) => do
    let (color, s') ← fetch indices s
    return (color, log ++ [indices], s')

/-- **A filter fetches at indices of the axes only.**  If the fetch answers there
whatever its state, so does the filter; noting the indices changes nothing, and
what is noted lies inside the axes. -/
theorem filter_noted {mode : FilterMode} {border : Color}
    {fetch : List Int → StateT σ (Except ε) Color} {axes : List AxisCoord}
    (hsizes : ∀ size ∈ AxisCoord.sizes axes, 0 < size)
    (hfetch : ∀ indices, Inside (AxisCoord.sizes axes) indices →
      ∀ s, ∃ color s', fetch indices s = .ok (color, s'))
    (s : σ) :
    ∃ color log s', filter mode border (noted fetch) axes [] ([], s) = .ok (color, log, s') ∧
      filter mode border fetch axes [] s = .ok (color, s') ∧
      ∀ indices ∈ log, Inside (AxisCoord.sizes axes) indices := by
  -- the states agree apart from the log, and the log is inside
  let related (p : List (List Int) × σ) (t : σ) : Prop :=
    p.2 = t ∧ ∀ indices ∈ p.1, Inside (AxisCoord.sizes axes) indices
  have hnoted : ∀ indices, Inside (AxisCoord.sizes axes) indices →
      InStep related (noted fetch indices) (fetch indices) := by
    intro indices hinside p t hrelated
    obtain ⟨hstate, hlog⟩ := hrelated
    obtain ⟨color, t', hanswer⟩ := hfetch indices hinside t
    refine ⟨color, (p.1 ++ [indices], t'), t', ?_, hanswer, rfl, ?_⟩
    · unfold noted
      simp only
      rw [hstate, hanswer]
      rfl
    · intro other hother
      rcases List.mem_append.mp hother with hold | hnew
      · exact hlog other hold
      · rw [List.mem_singleton.mp hnew]
        exact hinside
  have hstart : related ([], s) s := ⟨rfl, fun _ hmem => absurd hmem List.not_mem_nil⟩
  have hrun : InStep related (filter mode border (noted fetch) axes [])
      (filter mode border fetch axes []) :=
    InStep.composes.filter fun indices hinside => hnoted indices (hinside hsizes)
  obtain ⟨color, p, t, hwith, hwithout, hstate, hlog⟩ := hrun ([], s) s hstart
  refine ⟨color, p.1, p.2, hwith, ?_, hlog⟩
  rw [hstate]
  exact hwithout

end

end PixelPipeline
