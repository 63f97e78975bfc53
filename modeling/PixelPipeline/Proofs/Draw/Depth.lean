import PixelPipeline.Proofs.Binary32.Value
import PixelPipeline.Proofs.Draw.Frame
import PixelPipeline.Proofs.Draw.Order

/-!
# The depths that remain

While only the depth test decides, a stored depth goes from test to test: each
fragment that arrives at its position either fails and leaves it, or passes and
replaces it (`final_depth`).  After a row of fragments it is what these tests make
of the depths that arrived (`runAll_depths`).

The tests for a smaller or a greater depth keep the first of a chain: what remains
is one of the depths, and none of them is better (`foldl_retain`).
-/

namespace PixelPipeline

variable {x y z : Binary32}

/-! ## Depth tests -/

namespace Binary32

/-- Numbers compare by their values. -/
theorem compare?_eq (hx : x.isNaN = false) (hy : y.isNaN = false) :
    compare? x y = some (compare x.value y.value) := by
  unfold compare?
  rcases Int.lt_trichotomy x.value y.value with hlt | heq | hgt
  · rw [if_pos ((lt_iff hx hy).mpr hlt), Int.compare_eq_lt.mpr hlt]
  · rw [if_neg fun hlt => by have := (lt_iff hx hy).mp hlt; omega,
      if_neg fun hlt => by have := (lt_iff hy hx).mp hlt; omega, if_pos ((eq_iff hx hy).mpr heq),
      Int.compare_eq_eq.mpr heq]
  · rw [if_neg fun hlt => by have := (lt_iff hx hy).mp hlt; omega,
      if_pos ((lt_iff hy hx).mpr hgt), Int.compare_eq_gt.mpr hgt]

/-- The smaller of a number and what may be NaN is a number. -/
theorem isNaN_smaller (hy : y.isNaN = false) : (smaller x y).isNaN = false := by
  unfold smaller
  by_cases hignored : (x.isNaN || le y x) = true
  · rwa [if_pos hignored]
  · rw [if_neg hignored]
    exact (Bool.or_eq_false_iff.mp (Bool.eq_false_iff.mpr hignored)).1

end Binary32

open Binary32

/-- The depth is one of these, and in this order it comes before all of them. -/
structure Foremost (order : Binary32 → Binary32 → Bool) (depth : Binary32)
    (depths : List Binary32) : Prop where
  mem : depth ∈ depths
  before : ∀ z ∈ depths, order depth z = true

namespace CompareOp

variable {op : CompareOp} {order : Binary32 → Binary32 → Bool} {depths : List Binary32}

/-- The order in which the operator moves a stored depth, if it keeps to one. -/
def order? : CompareOp → Option (Binary32 → Binary32 → Bool)
  | .less | .lessEqual => some fun x y => le x y
  | .greater | .greaterEqual => some fun x y => le y x
  | _ => none

/-- What is stored after a depth was tested against the stored one. -/
def retain (op : CompareOp) (stored z : Binary32) : Binary32 :=
  if op.testDepth z stored then z else stored

/-- The place of a number in the operator's order. -/
def rank (op : CompareOp) (z : Binary32) : Int :=
  match op with
  | .greater | .greaterEqual => -z.value
  | _ => z.value

/-- The order of an operator is that of the ranks. -/
theorem order_iff (horder : op.order? = some order) (hx : x.isNaN = false) (hy : y.isNaN = false) :
    order x y = true ↔ op.rank x ≤ op.rank y := by
  unfold order? at horder
  unfold rank
  cases op <;> cases horder
  case less | lessEqual => exact le_iff hx hy
  case greaterEqual | greater => exact (le_iff hy hx).trans Int.neg_le_neg_iff.symm

/-- Equal ranks are equal values. -/
theorem rank_inj (op : CompareOp) : op.rank x = op.rank y ↔ x.value = y.value := by
  unfold rank
  cases op <;> simp only <;> omega

/-- One of the two depths is retained. -/
theorem retain_cases (op : CompareOp) (stored z : Binary32) :
    op.retain stored z = stored ∨ op.retain stored z = z := by
  unfold retain
  by_cases htest : op.testDepth z stored = true
  · exact .inr (if_pos htest)
  · exact .inl (if_neg htest)

/-- The better of two numbers is stored; of equal ones it may be either. -/
theorem rank_retain (horder : op.order? = some order) (hx : x.isNaN = false)
    (hz : z.isNaN = false) :
    op.rank (op.retain x z) = min (op.rank x) (op.rank z) := by
  unfold order? at horder
  unfold retain testDepth accepts rank
  rw [compare?_eq hz hx]
  rcases Int.lt_trichotomy z.value x.value with hlt | heq | hgt
  · rw [Int.compare_eq_lt.mpr hlt]
    cases op <;> cases horder <;> simp <;> omega
  · rw [Int.compare_eq_eq.mpr heq]
    cases op <;> cases horder <;> simp <;> omega
  · rw [Int.compare_eq_gt.mpr hgt]
    cases op <;> cases horder <;> simp <;> omega

/-- What is retained of two numbers is a number. -/
theorem isNaN_retain (hx : x.isNaN = false) (hz : z.isNaN = false) :
    (op.retain x z).isNaN = false := by
  obtain h | h := op.retain_cases x z
  · rwa [h]
  · rwa [h]

/-- After any number of tests one of the depths remains, and none of them is better. -/
theorem foldl_retain (horder : op.order? = some order) (hx : x.isNaN = false)
    (hnumbers : ∀ z ∈ depths, z.isNaN = false) :
    depths.foldl op.retain x ∈ x :: depths ∧
      ∀ z ∈ x :: depths, op.rank (depths.foldl op.retain x) ≤ op.rank z := by
  induction depths generalizing x with
  | nil => exact ⟨List.mem_cons_self, fun z hz => by rw [List.mem_singleton.mp hz]; exact le_rfl⟩
  | cons z rest ih =>
    obtain ⟨hz, hrest⟩ := List.forall_mem_cons.mp hnumbers
    have hrank := rank_retain horder hx hz
    obtain ⟨hmem, hbefore⟩ := ih (isNaN_retain hx hz) hrest
    obtain ⟨hfirst, hothers⟩ := List.forall_mem_cons.mp hbefore
    rw [hrank] at hfirst
    rw [List.foldl_cons]
    refine ⟨?_, List.forall_mem_cons.mpr ⟨by omega, List.forall_mem_cons.mpr ⟨by omega, hothers⟩⟩⟩
    obtain hretained | hretained := List.mem_cons.mp hmem
    · obtain h | h := op.retain_cases x z
      · rw [hretained, h]
        exact List.mem_cons_self
      · rw [hretained, h]
        exact List.mem_cons_of_mem _ List.mem_cons_self
    · exact List.mem_cons_of_mem _ (List.mem_cons_of_mem _ hretained)

/-- What is retained of numbers is a number. -/
theorem isNaN_foldl_retain (horder : op.order? = some order) (hx : x.isNaN = false)
    (hnumbers : ∀ z ∈ depths, z.isNaN = false) : (depths.foldl op.retain x).isNaN = false := by
  have hall : ∀ z ∈ x :: depths, z.isNaN = false := List.forall_mem_cons.mpr ⟨hx, hnumbers⟩
  exact hall _ (foldl_retain horder hx hnumbers).1

/-- **What is retained** comes first in the order among all depths. -/
theorem foremost_foldl_retain (horder : op.order? = some order) (hx : x.isNaN = false)
    (hnumbers : ∀ z ∈ depths, z.isNaN = false) :
    Foremost order (depths.foldl op.retain x) (x :: depths) := by
  obtain ⟨hmem, hbefore⟩ := foldl_retain horder hx hnumbers
  have hall : ∀ z ∈ x :: depths, z.isNaN = false := List.forall_mem_cons.mpr ⟨hx, hnumbers⟩
  exact ⟨hmem, fun z hz => (order_iff horder (hall _ hmem) (hall z hz)).mpr (hbefore z hz)⟩

/-- The order of the tests does not matter. -/
theorem eq_foldl_retain_of_perm (horder : op.order? = some order) (hx : x.isNaN = false)
    (hnumbers : ∀ z ∈ depths, z.isNaN = false) {depths' : List Binary32}
    (hperm : depths.Perm depths') :
    eq (depths.foldl op.retain x) (depths'.foldl op.retain x) = true := by
  have hnumbers' : ∀ z ∈ depths', z.isNaN = false := fun z hz => hnumbers z (hperm.mem_iff.mpr hz)
  obtain ⟨hmem, hbefore⟩ := foldl_retain horder hx hnumbers
  obtain ⟨hmem', hbefore'⟩ := foldl_retain horder hx hnumbers'
  have hle := hbefore _ ((hperm.cons x).mem_iff.mpr hmem')
  have hge := hbefore' _ ((hperm.cons x).mem_iff.mp hmem)
  rw [eq_iff (isNaN_foldl_retain horder hx hnumbers) (isNaN_foldl_retain horder hx hnumbers'),
    ← op.rank_inj]
  omega

/-- More tests do not lead back. -/
theorem order_foldl_retain (horder : op.order? = some order) (hx : x.isNaN = false)
    (hnumbers : ∀ z ∈ depths, z.isNaN = false) : order (depths.foldl op.retain x) x = true :=
  (foremost_foldl_retain horder hx hnumbers).before x List.mem_cons_self

end CompareOp

/-! ## Depths of a scene -/

namespace Scene

variable {q : Scene} {f : Fragment} {m m' : Texels} {u v : Int} {depth : Binary32}

/-- What the depth target holds at a window position. -/
def depthHeld? (q : Scene) (x y : Int) (m : Texels) : Option Binary32 := do
  let s ← q.depth
  let p ← s.spot? x y
  p.format.readDepth? (← p.read m)

/-- The depth with which a fragment arrives at a window position: the one inside the
depth range, if the switch, the range, the scissor and the bounds let the fragment
through. -/
def arrival? (q : Scene) (x y : Int) (f : Fragment) : Option Binary32 :=
  if f.x = x ∧ f.y = y ∧ (shut? (q.entrance f)).isNone then some (q.depthOf f) else none

/-- The depths that arrive at a window position, in the order of the fragments. -/
def arrivals (q : Scene) (x y : Int) (fragments : List Fragment) : List Binary32 :=
  fragments.filterMap (q.arrival? x y)

/-- Nothing but the depth test decides, and depths are stored in full. -/
structure DepthOnly (q : Scene) : Prop where
  tested : q.state.depthStencil.depthTest = true
  written : q.state.depthStencil.depthWrite = true
  unmasked : q.state.depthStencil.stencilTest = false
  full : ∀ s, q.depth = some s → s.format.layout = .depth32

/-- Inside the depth range there are only numbers. -/
theorem isNaN_depthOf (hrange : le q.state.depthRange.near q.state.depthRange.far = true)
    (f : Fragment) : (q.depthOf f).isNaN = false := by
  obtain ⟨hnear, hfar⟩ := isNaN_of_le hrange
  unfold depthOf
  by_cases hcontains : q.state.depthRange.contains f.z = true
  · rw [if_pos hcontains]
    exact (isNaN_of_le (Bool.and_eq_true_iff.mp hcontains).1).2
  · rw [if_neg hcontains]
    exact isNaN_smaller hfar

/-- The depths that arrive are numbers, if the depth range is one of numbers. -/
theorem isNaN_arrivals (hrange : le q.state.depthRange.near q.state.depthRange.far = true)
    (fragments : List Fragment) : ∀ z ∈ q.arrivals u v fragments, z.isNaN = false := by
  intro z hz
  obtain ⟨f, -, harrival⟩ := List.mem_filterMap.mp hz
  unfold arrival? at harrival
  by_cases hhere : f.x = u ∧ f.y = v ∧ (shut? (q.entrance f)).isNone
  · rw [if_pos hhere] at harrival
    exact Option.some.inj harrival ▸ isNaN_depthOf hrange f
  · rw [if_neg hhere] at harrival
    cases harrival

/-- What the first fragments leave is tested against what the next ones bring. -/
theorem foldl_arrivals_take (fragments : List Fragment) {k n : Nat} (hle : k ≤ n)
    (step : Binary32 → Binary32 → Binary32) (depth : Binary32) :
    (q.arrivals u v (fragments.take n)).foldl step depth
      = (q.arrivals u v ((fragments.take n).drop k)).foldl step
        ((q.arrivals u v (fragments.take k)).foldl step depth) := by
  have hfirst : (fragments.take n).take k = fragments.take k := by
    rw [List.take_take, Nat.min_eq_left hle]
  conv_lhs => rw [← List.take_append_drop k (fragments.take n), hfirst]
  unfold arrivals
  rw [List.filterMap_append, List.foldl_append]

/-- A held depth is stored in the texel of the target. -/
theorem depthHeld?_eq_some (hheld : q.depthHeld? u v m = some depth) :
    ∃ s p bytes, q.depth = some s ∧ s.spot? u v = some p ∧ p.read m = some bytes ∧
      p.format.readDepth? bytes = some depth := by
  obtain ⟨s, hdepth, hrest⟩ := Option.bind_eq_some_iff.mp hheld
  obtain ⟨p, hspot, hrest⟩ := Option.bind_eq_some_iff.mp hrest
  obtain ⟨bytes, hread, hvalue⟩ := Option.bind_eq_some_iff.mp hrest
  exact ⟨s, p, bytes, hdepth, hspot, hread, hvalue⟩

/-- A fragment at another position leaves a held depth. -/
theorem depthHeld?_final_of_apart (heven : q.Even) (hapart : ¬ (f.x = u ∧ f.y = v))
    {shaded : Option Color} (hfinal : q.final f m shaded = some m')
    (hheld : q.depthHeld? u v m = some depth) : q.depthHeld? u v m' = some depth := by
  obtain ⟨s, p, bytes, hdepth, hspot, hread, hvalue⟩ := depthHeld?_eq_some hheld
  have hother : Fragment.Apart { f with x := u, y := v } f := by
    intro heq
    obtain ⟨hx, hy⟩ := Prod.mk.inj heq
    exact hapart ⟨hx.symm, hy.symm⟩
  have hamong : Spot.Among (q.spots { f with x := u, y := v }) p.image p.texel :=
    Spot.among_self (mem_spots (mem_surfaces_depth hdepth) hspot)
  have hkept : p.read m' = p.read m :=
    (final_local shaded).frame hfinal (spots_apart heven hother _ _ hamong)
  simp [depthHeld?, hdepth, hspot, hkept, hread, hvalue]

/-- A stored depth is held afterwards. -/
theorem depthHeld?_storeDepth (hq : q.DepthOnly) {s : Surface} (hdepth : q.depth = some s)
    (hstore : q.storeDepth f m = some m') : q.depthHeld? f.x f.y m' = some (q.depthOf f) := by
  unfold storeDepth at hstore
  rw [if_pos hq.written, hdepth] at hstore
  obtain ⟨p, hspot, hrest⟩ := Option.bind_eq_some_iff.mp hstore
  obtain ⟨bytes, -, hrest⟩ := Option.bind_eq_some_iff.mp hrest
  obtain ⟨new, hwrite, hrest⟩ := Option.bind_eq_some_iff.mp hrest
  obtain rfl := Option.some.inj hrest
  have hformat : p.format = s.format := by
    obtain ⟨-, rfl⟩ := Surface.spot?_eq_some hspot
    rfl
  have hread : p.read (p.write new m) = some new := if_pos ⟨rfl, rfl⟩
  have hvalue := Format.readDepth?_writeDepth (hformat ▸ hq.full s hdepth)
    (toOption_eq_some.mp hwrite)
  simp [depthHeld?, hdepth, hspot, hread, hvalue]

/-- No stencil value takes part where only the depth test decides. -/
theorem DepthOnly.storedStencil (hq : q.DepthOnly) : q.storedStencil f m = none := by
  unfold Scene.storedStencil
  rw [hq.unmasked]
  rfl

/-- Of the tests, only that of the depth can turn a fragment away. -/
theorem DepthOnly.shut?_tests (hq : q.DepthOnly) (hheld : q.depthHeld? f.x f.y m = some depth) :
    shut? (q.tests f m)
      = if q.state.depthStencil.depthCompare.testDepth (q.depthOf f) depth = true then none
        else some ⟨.depthTest, false, some (q.face f).depthFailOp⟩ := by
  have hstored : q.storedDepth f m = some depth := by
    unfold storedDepth
    rw [if_pos hq.tested]
    exact hheld
  unfold tests
  rw [hq.storedStencil, hstored, Option.all_none, Option.all_some]
  cases q.state.depthStencil.depthCompare.testDepth (q.depthOf f) depth with
  | false => rfl
  | true => rfl

/-- A fragment that comes to the tests leaves its depth, or the one it was tested against. -/
theorem depthHeld?_final_of_open (hq : q.DepthOnly) (hopen : shut? (q.entrance f) = none)
    {color : Color} (hfinal : q.final f m (some color) = some m')
    (hheld : q.depthHeld? f.x f.y m = some depth) :
    q.depthHeld? f.x f.y m'
      = some (q.state.depthStencil.depthCompare.retain depth (q.depthOf f)) := by
  unfold final at hfinal
  rw [Stage.barrier?_eq, hopen, Option.none_or, hq.shut?_tests hheld, hq.storedStencil] at hfinal
  unfold CompareOp.retain
  by_cases htest : q.state.depthStencil.depthCompare.testDepth (q.depthOf f) depth = true
  · rw [if_pos htest] at hfinal ⊢
    obtain ⟨blended, -, hrest⟩ := Option.bind_eq_some_iff.mp hfinal
    obtain ⟨passed, -, hstore⟩ := Option.bind_eq_some_iff.mp hrest
    obtain ⟨s, -, -, hdepth, -⟩ := depthHeld?_eq_some hheld
    exact depthHeld?_storeDepth hq hdepth hstore
  · rw [if_neg htest] at hfinal ⊢
    obtain rfl := Option.some.inj hfinal
    exact hheld

/-- **A fragment tests the depth that is held at its position and changes no other.** -/
theorem final_depth (hq : q.DepthOnly) (heven : q.Even) {color : Color}
    (hfinal : q.final f m (some color) = some m') (hheld : q.depthHeld? u v m = some depth) :
    q.depthHeld? u v m'
      = some ((q.arrival? u v f).toList.foldl q.state.depthStencil.depthCompare.retain depth) := by
  unfold arrival?
  by_cases hhere : f.x = u ∧ f.y = v
  case neg =>
    rw [if_neg fun harrives => hhere ⟨harrives.1, harrives.2.1⟩]
    exact depthHeld?_final_of_apart heven hhere hfinal hheld
  obtain ⟨rfl, rfl⟩ := hhere
  cases hentrance : shut? (q.entrance f) with
  | some gate =>
    unfold final at hfinal
    rw [Stage.barrier?_eq, hentrance, Option.some_or] at hfinal
    simp only [Stage.update_of_entrance hentrance] at hfinal
    obtain rfl := Option.some.inj hfinal
    rw [if_neg fun harrives => Bool.noConfusion harrives.2.2]
    exact hheld
  | none =>
    rw [if_pos ⟨rfl, rfl, rfl⟩]
    exact depthHeld?_final_of_open hq hentrance hfinal hheld

end Scene

/-! ## Rows of fragments -/

/-- The shader gives every fragment a colour. -/
def Shader.Colours {σ : Type} (shader : Shader σ) : Prop :=
  ∀ f t memory, ∃ color, (shader.shade f t memory).1 = .ok (some color)

namespace Stage

open Scene

variable {σ : Type} {g : Stage} {r : Resources} {q : Scene} {unit : BlendUnit} {shader : Shader σ}

/-- **A row of fragments tests the depths that arrive**, each against what the tests
before it left. -/
theorem runAll_depths (hstaged : ∀ f, g.Staged r q f)
    (hunit : BlendCompiler.unitOf q.state.pipelineState = .ok unit) (hq : q.DepthOnly)
    (heven : q.Even) (hcolours : shader.Colours) (fragments : List Fragment) (stats : DrawStats)
    (memory : σ) :
    ∃ stats' r' memory', g.runAll unit shader fragments stats ⟨r, memory⟩
        = (.ok stats', ⟨r', memory'⟩) ∧ r.Redrawn r' ∧
      ∀ x y depth, q.depthHeld? x y r.texels = some depth →
        q.depthHeld? x y r'.texels = some ((q.arrivals x y fragments).foldl
          q.state.depthStencil.depthCompare.retain depth) := by
  induction fragments generalizing r stats memory with
  | nil => exact ⟨stats, r, memory, rfl, .refl r, fun x y depth hheld => hheld⟩
  | cons f rest ih =>
    obtain ⟨color, hshaded⟩ := hcolours f ⟨r, g.units⟩ memory
    obtain ⟨m, r', hfinal, hdraws, hrun⟩ := run_follows (hstaged f) hunit hshaded
    obtain ⟨stats'', r'', memory'', hrest, hredrawn, hdepths⟩ :=
      ih (fun f => (hstaged f).redrawn hdraws.redrawn) (stats.record _) _
    refine ⟨stats'', r'', memory'', ?_, hdraws.redrawn.trans hredrawn, ?_⟩
    · unfold runAll
      rw [hrun]
      exact hrest
    · intro x y depth hheld
      have hstep := final_depth hq heven hfinal hheld
      rw [← hdraws.texels] at hstep
      rw [hdepths x y _ hstep]
      unfold arrivals
      cases harrival : q.arrival? x y f with
      | none => rw [List.filterMap_cons_none harrival]; rfl
      | some z => rw [List.filterMap_cons_some harrival]; rfl

end Stage

end PixelPipeline
