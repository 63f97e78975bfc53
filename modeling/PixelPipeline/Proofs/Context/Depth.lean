import PixelPipeline.Proofs.Context.Order
import PixelPipeline.Proofs.Draw.Depth

/-!
# The depths that a draw leaves

A draw that tests depths for smaller or greater ones leaves at every window position
the smallest or the greatest of the depth that was there and of those that arrived
(`Reachable.draw_depth`), in whatever order the fragments came and whatever the shader
remembers.  On the way a stored depth only moves in one direction: the states that a
draw goes through are those that draws of its first fragments leave
(`Coherent.draw_append`).
-/

namespace PixelPipeline

namespace Stage

variable {σ : Type} {g : Stage} {unit : BlendUnit} {shader : Shader σ}

/-- A row goes on where its first part ended. -/
theorem runAll_append {front : List Fragment} {stats stats' : DrawStats}
    {s s' : Surroundings σ} (hfront : g.runAll unit shader front stats s = (.ok stats', s'))
    (back : List Fragment) :
    g.runAll unit shader (front ++ back) stats s = g.runAll unit shader back stats' s' := by
  induction front generalizing stats s with
  | nil =>
    obtain ⟨hstats, rfl⟩ := Prod.mk.inj hfront
    rw [Except.ok.inj hstats]
    rfl
  | cons f rest ih =>
    rw [List.cons_append]
    rw [runAll] at hfront ⊢
    rcases hrun : g.run unit shader f s with ⟨fault | outcome, after⟩
    · rw [hrun] at hfront
      cases (Prod.mk.inj hfront).1
    · rw [hrun] at hfront
      exact ih hfront

/-- What a row leaves does not depend on what was counted before. -/
theorem runAll_surroundings (fragments : List Fragment) (stats stats' : DrawStats)
    (s : Surroundings σ) :
    (g.runAll unit shader fragments stats s).2 = (g.runAll unit shader fragments stats' s).2 := by
  induction fragments generalizing stats stats' s with
  | nil => rfl
  | cons f rest ih =>
    unfold runAll
    rcases g.run unit shader f s with ⟨fault | outcome, after⟩
    · rfl
    · exact ih _ _ after

end Stage

namespace RenderContext

open Scene

variable {σ : Type} {c : RenderContext} {shader : Shader σ} {h : Handle .surface} {s : Surface}

/-- **A draw goes on where a draw of its first fragments ended.** -/
theorem Coherent.draw_append (hcoherent : c.Coherent) {front : List Fragment} {memory : σ}
    {stats : DrawStats} (hresult : (c.draw shader front memory).result = .ok stats)
    (back : List Fragment) :
    let between := (c.draw shader front memory).state
    let whole := (c.draw shader (front ++ back) memory).state
    let rest := (between.context.draw shader back between.memory).state
    whole.context.resources = rest.context.resources ∧ whole.memory = rest.memory := by
  have hbetween := (Step.draw shader front memory).coherent hcoherent
  obtain ⟨u, cache, current, log, hunit, hfront⟩ := hcoherent.draw_eq shader front memory
  obtain ⟨u', _, _, _, hunit', hwhole⟩ := hcoherent.draw_eq shader (front ++ back) memory
  obtain ⟨u'', _, _, _, hunit'', hrest⟩ :=
    hbetween.draw_eq shader back (c.draw shader front memory).state.memory
  obtain rfl := Except.ok.inj (hunit.symm.trans hunit')
  rw [hfront] at hresult hunit'' hrest
  obtain rfl := Except.ok.inj (hunit.symm.trans hunit'')
  rcases hrow : c.stage.runAll u shader front default ⟨c.resources, memory⟩ with ⟨answer, after⟩
  rw [hrow] at hresult hfront hrest
  obtain rfl : answer = .ok stats := hresult
  simp only [hfront, hwhole, hrest, Stage.runAll_append hrow back]
  rw [Stage.runAll_surroundings back stats default after]
  exact ⟨rfl, rfl⟩

/-! ## Depths of a target -/

/-- Depths are tested and stored in full, and nothing else decides: the depth test and
depth writes are on, the stencil test is off, and the depth range is a range of
numbers. -/
structure DepthTested (c : RenderContext) (h : Handle .surface) (s : Surface) : Prop where
  target : c.targets.depth = some h
  surface : c.resources.surfaces.get? h = some s
  format : s.format = .d32Sfloat
  tested : c.state.depthStencil.depthTest = true
  written : c.state.depthStencil.depthWrite = true
  unmasked : c.state.depthStencil.stencilTest = false
  range : Binary32.le c.state.depthRange.near c.state.depthRange.far = true

/-- The depth target of the scene is the tested surface. -/
theorem DepthTested.scene_depth (htested : c.DepthTested h s) : c.scene.depth = some s := by
  change c.targets.depth >>= c.resources.surfaces.get? = some s
  rw [htested.target]
  exact htested.surface

/-- Nothing but the depth test decides in the scene. -/
theorem DepthTested.depthOnly (htested : c.DepthTested h s) : c.scene.DepthOnly where
  tested := htested.tested
  written := htested.written
  unmasked := htested.unmasked
  full s' hdepth := by
    obtain rfl := Option.some.inj (htested.scene_depth.symm.trans hdepth)
    rw [htested.format]
    rfl

/-- Every window position of the target holds a depth, also after steps of drawing. -/
theorem DepthTested.depthAt (htested : c.DepthTested h s) (hcoherent : c.Coherent)
    {r : Resources} (hredrawn : c.resources.Redrawn r) {x y : Nat}
    (hx : x < s.width) (hy : y < s.height) :
    ∃ depth, Stage.depthAt r h x y = .ok depth ∧ c.scene.depthHeld? x y r.texels = some depth := by
  have hfits : s.format.hasDepth = true := by
    rw [htested.format]
    rfl
  obtain ⟨p, hspot⟩ : ∃ p, s.spot? x y = some p := ⟨_, if_pos (by omega)⟩
  have hsited := (hcoherent.resources.sited htested.surface hspot).redrawn hredrawn
  obtain ⟨t, htexel, rfl⟩ := Option.map_eq_some_iff.mp
    ((s.spot?_eq (Int.natCast_nonneg x) (Int.natCast_nonneg y)).symm.trans hspot)
  obtain ⟨bytes, hread, hlength⟩ := hsited.read
  obtain ⟨depth, hdepth⟩ := Format.readDepth?_eq_some hfits hlength
  have hget : r.surfaces.get? h = some s := hredrawn.surfaces ▸ htested.surface
  refine ⟨depth, Stage.readTexel_eq hget htexel hsited hread hdepth, ?_⟩
  simp [depthHeld?, htested.scene_depth, hspot, hread, hdepth]

/-- Reading a depth back reads the depth target at the position. -/
theorem readDepth_eq {x y : Nat} {depth : Binary32} (htarget : c.targets.depth = some h)
    (hdepth : Stage.depthAt c.resources h x y = .ok depth) :
    c.readDepth x y = .ok (some depth) := by
  unfold readDepth
  rw [htarget]
  simp only [hdepth]
  rfl

/-- **A draw tests the depths that arrive**, at every position against the one that
was there. -/
theorem Coherent.draw_depths (hcoherent : c.Coherent) (hlive : c.TargetsLive)
    (htested : c.DepthTested h s) (hcolours : shader.Colours) (fragments : List Fragment)
    (memory : σ) :
    let drawn := c.draw shader fragments memory
    (∃ stats, drawn.result = .ok stats) ∧
      ∀ x y : Nat, x < s.width → y < s.height → ∃ initial,
        c.readDepth x y = .ok (some initial) ∧
        drawn.state.context.readDepth x y = .ok (some
          ((c.scene.arrivals x y fragments).foldl c.state.depthStencil.depthCompare.retain
            initial)) := by
  obtain ⟨u, cache, current, log, hunit, hdraw⟩ := hcoherent.draw_eq shader fragments memory
  obtain ⟨stats, r', memory', hrow, hredrawn, hdepths⟩ :=
    Stage.runAll_depths (fun f => hcoherent.staged hlive) hunit htested.depthOnly
      hcoherent.even hcolours fragments default memory
  rw [hdraw, hrow]
  refine ⟨⟨stats, rfl⟩, fun x y hx hy => ?_⟩
  obtain ⟨initial, hinitial, hheld⟩ := htested.depthAt hcoherent (.refl _) hx hy
  obtain ⟨depth, hdepth, hheld'⟩ := htested.depthAt hcoherent hredrawn hx hy
  obtain rfl := Option.some.inj (hheld'.symm.trans (hdepths x y initial hheld))
  exact ⟨initial, readDepth_eq htested.target hinitial, readDepth_eq htested.target hdepth⟩

/-- **The smallest or the greatest depth remains.**  In a reachable context whose targets
exist, with a depth target of numbers that are tested for smaller or for greater ones and
with a shader that colours every fragment, a draw ends.  At every position it leaves a
number that is one of the depth that was there and of the depths that arrived, and that
comes before all of them; any order of the fragments leaves an equal one, and later in a
draw a depth never comes after an earlier one. -/
theorem Reachable.draw_depth (hreachable : c.Reachable) (hlive : c.TargetsLive)
    (htested : c.DepthTested h s)
    {order : Binary32 → Binary32 → Bool}
    (horder : c.state.depthStencil.depthCompare.order? = some order)
    (hnumbers : ∀ x y depth, x < s.width → y < s.height →
      c.readDepth x y = .ok (some depth) → depth.isNaN = false)
    (hcolours : shader.Colours) (fragments : List Fragment) (memory : σ) :
    let drawn := c.draw shader fragments memory
    let first := fun n => c.draw shader (fragments.take n) memory
    (∃ stats, drawn.result = .ok stats) ∧
      (∀ x y : Nat, x < s.width → y < s.height → ∃ initial depth,
        c.readDepth x y = .ok (some initial) ∧
        drawn.state.context.readDepth x y = .ok (some depth) ∧
        depth.isNaN = false ∧
        Foremost order depth (initial :: c.scene.arrivals x y fragments) ∧
        (∀ fragments' memory', fragments.Perm fragments' → ∃ depth',
          (c.draw shader fragments' memory').state.context.readDepth x y = .ok (some depth') ∧
          Binary32.eq depth depth' = true) ∧
        ∀ m n, m ≤ n → ∃ earlier later,
          (first m).state.context.readDepth x y = .ok (some earlier) ∧
          (first n).state.context.readDepth x y = .ok (some later) ∧
          earlier.isNaN = false ∧ order later earlier = true) ∧
      ∀ n, let between := (first n).state
        let rest := (between.context.draw shader (fragments.drop n) between.memory).state
        drawn.state.context.resources = rest.context.resources ∧
          drawn.state.memory = rest.memory := by
  have hcoherent := hreachable.coherent
  have hdraws := fun fragments memory =>
    hcoherent.draw_depths (σ := σ) hlive htested hcolours fragments memory
  have harrivals : ∀ (x y : Int) (fragments : List Fragment),
      ∀ z ∈ c.scene.arrivals x y fragments, z.isNaN = false :=
    fun x y => isNaN_arrivals (q := c.scene) htested.range
  refine ⟨(hdraws fragments memory).1, fun x y hx hy => ?_, fun n => ?_⟩
  · obtain ⟨initial, hinitial, hfinal⟩ := (hdraws fragments memory).2 x y hx hy
    -- every draw starts from the same depth
    have hread : ∀ fragments memory, (c.draw shader fragments memory).state.context.readDepth x y
        = .ok (some ((c.scene.arrivals x y fragments).foldl
            c.state.depthStencil.depthCompare.retain initial)) := by
      intro fragments memory
      obtain ⟨initial', hinitial', hfinal'⟩ := (hdraws fragments memory).2 x y hx hy
      obtain rfl := Option.some.inj (Except.ok.inj (hinitial.symm.trans hinitial'))
      exact hfinal'
    have hnumber := hnumbers x y initial hx hy hinitial
    refine ⟨initial, _, hinitial, hfinal,
      CompareOp.isNaN_foldl_retain horder hnumber (harrivals x y fragments),
      CompareOp.foremost_foldl_retain horder hnumber (harrivals x y fragments), ?_, ?_⟩
    · intro fragments' memory' hperm
      exact ⟨_, hread fragments' memory', CompareOp.eq_foldl_retain_of_perm horder hnumber
        (harrivals x y fragments) (hperm.filterMap _)⟩
    · intro m n hle
      have hearlier := CompareOp.isNaN_foldl_retain horder hnumber
        (harrivals x y (fragments.take m))
      refine ⟨_, _, hread _ memory, hread _ memory, hearlier, ?_⟩
      rw [foldl_arrivals_take fragments hle]
      exact CompareOp.order_foldl_retain horder hearlier (harrivals x y _)
  · obtain ⟨stats, hresult⟩ := (hdraws (fragments.take n) memory).1
    have happend := hcoherent.draw_append hresult (fragments.drop n)
    rwa [List.take_append_drop] at happend

/-! ## Two rows of depths -/

/-- An image of two rows of two depths, all zero. -/
def depthImages : Arena .image Image :=
  ⟨#[⟨1, some ⟨.d2 .d32Sfloat 2 2, Array.replicate 16 0⟩⟩], []⟩

/-- The surface of the image. -/
def depthSurface : Surface := ⟨⟨1, 1⟩, .d32Sfloat, 0, 0, 2, 2⟩

/-- A context that keeps the greatest depths, and takes depths outside of the range for its
ends. -/
def deepest : RenderContext where
  settings := ⟨1, 1, 1, false⟩
  resources := ⟨depthImages, .empty, .empty, ⟨#[⟨1, some depthSurface⟩], []⟩⟩
  units := .create 1
  cache := .create (.new false) 1 1
  targets := ⟨none, some ⟨1, 1⟩, none⟩
  current := none
  state := { (default : RenderState) with
    depthStencil := ⟨true, true, .greater, false, default, default⟩
    rasterizer := ⟨false, true, false⟩ }

/-- The context of the greatest depths can come to be. -/
theorem deepest_reachable : deepest.Reachable :=
  reachable_of_setup
    [.createImage 16 (.d2 .d32Sfloat 2 2), .createSurface ⟨1, 1⟩ 0 0] rfl rfl rfl rfl rfl

/-- Depths that are no numbers, too large, at another position, and outside of the target. -/
def ascending : List Fragment :=
  [⟨0, 0, .invalid, true, []⟩, ⟨0, 0, .half, true, []⟩, ⟨1, 1, .half, true, []⟩,
    ⟨0, 0, ⟨0x7f800000⟩, true, []⟩, ⟨2, 0, .one, true, []⟩, ⟨0, 0, .half, true, []⟩]

/-- The greatest depth is left where several arrived, the only one where one did, and zero
elsewhere. -/
theorem draw_depth_ascending :
    let drawn := deepest.draw violet ascending ()
    deepest.TargetsLive ∧ deepest.DepthTested ⟨1, 1⟩ depthSurface ∧
      (∀ x y depth, x < 2 → y < 2 →
        deepest.readDepth x y = .ok (some depth) → depth.isNaN = false) ∧
      violet.Colours ∧ deepest.scene.arrivals 0 0 ascending = [.zero, .half, .one, .half] ∧
      drawn.state.context.readDepth 0 0 = .ok (some .one) ∧
      Foremost (fun x y => Binary32.le y x) .one [.zero, .zero, .half, .one, .half] ∧
      drawn.state.context.readDepth 1 1 = .ok (some .half) ∧
      drawn.state.context.readDepth 1 0 = .ok (some .zero) := by
  have hlive : deepest.TargetsLive := by decide
  have htested : deepest.DepthTested ⟨1, 1⟩ depthSurface :=
    ⟨rfl, rfl, rfl, rfl, rfl, rfl, by decide⟩
  have hinitial : ∀ x < 2, ∀ y < 2, deepest.readDepth x y = .ok (some .zero) := by
    decide +kernel
  have hnumbers : ∀ x y depth, x < 2 → y < 2 →
      deepest.readDepth x y = .ok (some depth) → depth.isNaN = false := by
    intro x y depth hx hy hread
    obtain rfl := Option.some.inj (Except.ok.inj ((hinitial x hx y hy).symm.trans hread))
    rfl
  have hcolours : violet.Colours := fun _ _ _ => ⟨_, rfl⟩
  have harrivals : deepest.scene.arrivals 0 0 ascending = [.zero, .half, .one, .half] := by
    decide +kernel
  have hfinal : (deepest.draw violet ascending ()).state.context.readDepth 0 0
      = .ok (some .one) := by decide +kernel
  obtain ⟨-, hdepths, -⟩ :=
    deepest_reachable.draw_depth hlive htested rfl hnumbers hcolours ascending ()
  obtain ⟨initial, depth, hread, hdrawn, -, hforemost, -⟩ :=
    hdepths 0 0 Nat.zero_lt_two Nat.zero_lt_two
  obtain rfl := Option.some.inj
    (Except.ok.inj ((hinitial 0 Nat.zero_lt_two 0 Nat.zero_lt_two).symm.trans hread))
  obtain rfl := Option.some.inj (Except.ok.inj (hfinal.symm.trans hdrawn))
  have hlist : deepest.scene.arrivals ((0 : Nat) : Int) ((0 : Nat) : Int) ascending
      = [.zero, .half, .one, .half] := harrivals
  rw [hlist] at hforemost
  exact ⟨hlive, htested, hnumbers, hcolours, harrivals, hfinal, hforemost, by decide +kernel,
    by decide +kernel⟩

end RenderContext

end PixelPipeline
