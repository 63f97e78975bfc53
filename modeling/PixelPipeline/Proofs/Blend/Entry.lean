import Mathlib.Data.List.Forall2
import PixelPipeline.Proofs.Blend.Helpers

/-!
# What a blend program computes

The entry of a state's program calls the helpers in order: both factors of
source and destination into two temporary arrays, both equations into a third,
and the mask from there into the stored colour.  Every array is complete before
it is read, although a helper fills some of its lanes only.

* `invoke_call` — the helper of a call is found under its number;
* `execAll_blend` — the calls of a state that blends;
* `run_programOf` — the program leaves the pixel that the state's meaning says.
-/

namespace PixelPipeline.Blend

open Ir Reference

variable {s : PipelineState} {inv : Invoke} {a : Activation} {st : Store} {stmts : List Stmt}

/-! ## Calls -/

/-- A helper of the program stands under its number. -/
theorem routine?_idxOf {h : Helper} (hmem : h ∈ helpers s) :
    (programOf s).routine? ((helpers s).idxOf h) = some h.routine := by
  have hlt := List.idxOf_lt_length_of_mem hmem
  have hget : ((helpers s).map Helper.routine)[(helpers s).idxOf h]? = some h.routine := by
    rw [List.getElem?_map, List.getElem?_eq_getElem hlt, List.getElem_idxOf hlt]
    rfl
  rw [Module.routine?, programOf, List.getElem?_append_left (by simpa using hlt), hget]

/-- The entry stands behind the helpers. -/
theorem routine?_entry : (programOf s).routine? (helpers s).length = some (entryRoutine s) := by
  rw [Module.routine?, programOf, List.getElem?_append_right (by simp)]
  simp

/-- Every helper that the entry calls is one of the program's. -/
theorem helper_mem {c : HelperCall} (hmem : c ∈ calls s) : c.helper ∈ helpers s := by
  rw [helpers, List.mem_eraseDups]
  exact List.mem_cons_of_mem _ (List.mem_map_of_mem hmem)

/-- A statement that succeeds is followed by the others. -/
theorem execAll_step {m : Module} {st' : Store} {stmt : Stmt}
    (h : exec m inv a st stmt = .ok st') :
    execAll m inv a st (stmt :: stmts) = execAll m inv a st' stmts := by
  rw [execAll, h]
  rfl

/-- Statements that succeed are followed by those after them. -/
theorem execAll_append {m : Module} {st' : Store} {front back : List Stmt}
    (h : execAll m inv a st front = .ok st') :
    execAll m inv a st (front ++ back) = execAll m inv a st' back := by
  induction front generalizing st with
  | nil =>
      obtain rfl := Except.ok.inj h
      rfl
  | cons stmt rest ih =>
      rw [execAll] at h
      cases hstmt : exec m inv a st stmt with
      | error stuck =>
          rw [hstmt] at h
          cases h
      | ok st₁ =>
          rw [hstmt] at h
          rw [List.cons_append, execAll_step hstmt]
          exact ih h

/-- A call runs its helper on the arrays it names. -/
theorem exec_call {c : HelperCall} (hmem : c ∈ calls s) {actuals : List Actual} {final : Memory}
    (hargs : a.passAll st (c.args.map .array) = .ok actuals)
    (hrun : inv c.helper.routine actuals st.memory = .ok final) :
    exec (programOf s) inv a st (c.stmt (helpers s)) = .ok { st with memory := final } := by
  rw [HelperCall.stmt, exec, routine?_idxOf (helper_mem hmem)]
  change (a.passAll st (c.args.map .array) >>= _) = _
  rw [hargs]
  change (inv c.helper.routine actuals st.memory >>= _) = _
  rw [hrun]
  rfl

/-- Arrays are passed by their addresses. -/
theorem passAll_arrays {arrays : List ArrayRef} (addresses : List Nat)
    (h : List.Forall₂ (fun array address => a.address array = .ok address) arrays addresses) :
    a.passAll st (arrays.map .array) = .ok (addresses.map .array) := by
  induction h with
  | nil => rfl
  | cons haddress _ ih =>
      rw [List.map_cons, Activation.passAll, ih, Activation.pass, haddress]
      rfl

/-! ## The entry at work -/

/-- The entry of a state's program, whose reference parameters stand for the
first four arrays. -/
def entryActivation (s : PipelineState) (depth : Binary32) : Activation :=
  ⟨entryRoutine s, [.array 0, .array 1, .array 2, .scalar depth, .array 3], 4⟩

variable {depth stored : Binary32} {src dst constant : Color} {mem : Memory}

/-- The temporary arrays lie behind the four parameters. -/
theorem address_temp (hactive : s.blendingActive = true) {i : Nat} (hi : i < 3) :
    (entryActivation s depth).address (.temp i) = .ok (4 + i) := by
  have htemps : (entryRoutine s).temps = 3 := if_pos hactive
  simp only [Activation.address, entryActivation, htemps, if_pos hi]

/-- Both halves of a temporary array, filled one after the other. -/
theorem has_of_halves {mem₁ mem₂ mem₃ : Memory} {r : Nat} {x y : Fin 4 → Binary32} {color : Color}
    (hrgb : mem.Fills r rgbLanes x mem₁)
    (kept : ∀ lane : Fin 4, mem₂.lanes r lane = mem₁.lanes r lane) (hr : r < mem₂.size)
    (halpha : mem₂.Fills r alphaLanes y mem₃)
    (hc : ∀ i : Fin 4, color.get i = if i = Color.alphaChannel then y i else x i) :
    mem₃.Has r color := by
  intro lane
  rw [hc lane]
  by_cases hlane : lane = Color.alphaChannel
  · subst hlane
    exact halpha.filled _ (by decide)
  · rw [if_neg hlane]
    have hmem : lane.val ∈ rgbLanes ∧ lane.val ∉ alphaLanes := by
      revert hlane
      revert lane
      decide
    rw [halpha.kept r hr lane (.inr hmem.2), kept lane]
    exact hrgb.filled lane hmem.1

/-- The colour whose alpha channel is scaled by one factor and whose other
channels by another. -/
def scaled (rgb alpha : BlendFactor) (value src dst constant : Color) : Color :=
  Vector.ofFn fun i =>
    (if i = Color.alphaChannel then alpha else rgb).scale (value.get i) src dst constant i

/-- The colour lanes are scaled by one factor, and the alpha lane by the other. -/
theorem scaled_get (rgb alpha : BlendFactor) (value src dst constant : Color) (i : Fin 4) :
    (scaled rgb alpha value src dst constant).get i
      = if i = Color.alphaChannel then alpha.scale (value.get i) src dst constant i
        else rgb.scale (value.get i) src dst constant i := by
  rw [scaled, Color.get_ofFn]
  split <;> rfl

/-- The arrays that the entry was given hold what they held at first. -/
structure Given (mem : Memory) (src dst constant : Color) (stored : Binary32) : Prop where
  size : mem.size = 7
  dst : mem.Has 0 dst
  stored : mem.lanes 1 0 = some stored
  src : mem.Has 2 src
  constant : mem.Has 3 constant

/-- Filling a temporary array leaves what the entry was given. -/
theorem Given.fills {r : Nat} {lanes : List Nat} {x : Fin 4 → Binary32} {final : Memory}
    (h : Given mem src dst constant stored) (hr : 4 ≤ r) (fills : mem.Fills r lanes x final) :
    Given final src dst constant stored where
  size := fills.size.trans h.size
  stored := (fills.spares.kept 1 (by have := h.size; omega) (by omega) 0).trans h.stored
  dst := fills.spares.has (by have := h.size; omega) (by omega) h.dst
  src := fills.spares.has (by have := h.size; omega) (by omega) h.src
  constant := fills.spares.has (by have := h.size; omega) (by omega) h.constant

/-- A call of a factor helper fills its lanes of a temporary array with the
scaled source or destination. -/
theorem exec_factor (depth : Binary32) (st : Store) (hactive : s.blendingActive = true)
    (h : Helper) {name : String} {factor : BlendFactor} (lanes : List Nat)
    (hroutine : h.routine = factorRoutine name factor lanes) (hlanes : ∀ l ∈ lanes, l < 4) {i : Nat}
    (hi : i < 3) (org : ArrayRef) {v : Nat} {value : Color}
    (hmem : ⟨h, [.temp i, org, Entry.color, Entry.colorBuf, Entry.constant]⟩ ∈ calls s)
    (horg : (entryActivation s depth).address org = .ok v) (hv : v < 4)
    (given : Given st.memory src dst constant stored) (hvalue : st.memory.Has v value)
    (fuel : Nat) :
    ∃ final, exec (programOf s) (invoke (programOf s) (fuel + 8)) (entryActivation s depth) st
        (HelperCall.stmt (helpers s)
          ⟨h, [.temp i, org, Entry.color, Entry.colorBuf, Entry.constant]⟩)
        = .ok { st with memory := final } ∧
      st.memory.Fills (4 + i) lanes (fun i => factor.scale (value.get i) src dst constant i)
        final := by
  have hsize := given.size
  obtain ⟨final, hrun, fills⟩ := invoke_factor (m := programOf s) (r := 4 + i) (v := v) (p := 2)
    (q := 0) (k := 3) name factor hlanes (by omega) ⟨by omega, by omega, hvalue⟩
    ⟨by omega, by omega, given.src⟩ ⟨by omega, by omega, given.dst⟩
    ⟨by omega, by omega, given.constant⟩ (fuel + 3)
  refine ⟨final, exec_call hmem (passAll_arrays [4 + i, v, 2, 0, 3] ?_) ?_, fills⟩
  · exact .cons (address_temp hactive hi) (.cons horg (.cons rfl (.cons rfl (.cons rfl .nil))))
  · rw [hroutine]
    exact hrun

/-- A call of an equation helper fills its lanes of the third temporary array
with the combined values. -/
theorem exec_equation (depth : Binary32) (st : Store) (hactive : s.blendingActive = true)
    (h : Helper) {name : String} {equation : BlendEquation} (lanes : List Nat)
    (hroutine : h.routine = equationRoutine name equation lanes) (hlanes : ∀ l ∈ lanes, l < 4)
    (hlength : lanes.length ≤ 3)
    (hmem : ⟨h, [Entry.combined, Entry.scaledSrc, Entry.scaledDst]⟩ ∈ calls s)
    (hsize : st.memory.size = 7) (hsrc : st.memory.Has 4 src) (hdst : st.memory.Has 5 dst)
    (fuel : Nat) :
    ∃ final, exec (programOf s) (invoke (programOf s) (fuel + 8)) (entryActivation s depth) st
        (HelperCall.stmt (helpers s) ⟨h, [Entry.combined, Entry.scaledSrc, Entry.scaledDst]⟩)
        = .ok { st with memory := final } ∧
      st.memory.Fills 6 lanes (fun i => equation.combine (src.get i) (dst.get i)) final := by
  obtain ⟨final, hrun, fills⟩ := invoke_equation (m := programOf s) (r := 6) (p := 4) (q := 5) name
    equation hlanes (by omega) ⟨by omega, by omega, hsrc⟩ ⟨by omega, by omega, hdst⟩
    (show 2 * lanes.length + 2 ≤ fuel + 8 by omega)
  refine ⟨final, exec_call hmem (passAll_arrays [6, 4, 5] ?_) ?_, fills⟩
  · exact .cons (address_temp hactive (by decide)) (.cons (address_temp hactive (by decide))
      (.cons (address_temp hactive (by decide)) .nil))
  · rw [hroutine]
    exact hrun

/-- The lanes of a mask are those that it selects. -/
theorem mem_maskLanes {mask : ColorMask} {lane : Fin 4} :
    lane.val ∈ ((List.finRange 4).filter mask.has).map Fin.val ↔ mask.has lane = true := by
  simp [Fin.val_inj]

/-- The call of the mask copies its lanes to the stored colour. -/
theorem exec_mask (depth : Binary32) (st : Store) {mask : ColorMask} {org : ArrayRef} {v : Nat}
    (hmem : ⟨.mask mask, [Entry.colorBuf, org]⟩ ∈ calls s)
    (horg : (entryActivation s depth).address org = .ok v) (hv : 0 < v) (hlt : v < st.memory.size)
    (hdst : st.memory.Has 0 dst) (hvalue : st.memory.Has v src) (fuel : Nat) :
    ∃ final, exec (programOf s) (invoke (programOf s) (fuel + 8)) (entryActivation s depth) st
        (HelperCall.stmt (helpers s) ⟨.mask mask, [Entry.colorBuf, org]⟩)
        = .ok { st with memory := final } ∧
      final.Has 0 (Color.select mask.channels dst src) ∧ st.memory.Spares 0 final := by
  obtain ⟨final, hrun, fills⟩ := invoke_mask (m := programOf s) (r := 0) (p := v) mask (by omega)
    ⟨hlt, by omega, hvalue⟩ (fuel + 6)
  refine ⟨final, exec_call hmem (passAll_arrays [0, v] ?_) hrun, ?_, fills.spares⟩
  · exact .cons rfl (.cons horg .nil)
  · intro lane
    have hselect : (Color.select mask.channels dst src).get lane
        = if mask.has lane = true then src.get lane else dst.get lane := by
      simp [ColorMask.channels]
    rw [hselect]
    by_cases hlane : mask.has lane = true
    · rw [if_pos hlane]
      exact fills.filled lane (mem_maskLanes.mpr hlane)
    · rw [if_neg hlane, fills.kept 0 (by omega) lane (.inr (mt mem_maskLanes.mp hlane))]
      exact hdst lane

/-- The calls of a state that blends. -/
theorem calls_eq (hactive : s.blendingActive = true) :
    calls s
      = [⟨.rgbFactor s.attachment.srcRgb,
          [Entry.scaledSrc, Entry.color, Entry.color, Entry.colorBuf, Entry.constant]⟩,
        ⟨.rgbFactor s.attachment.dstRgb,
          [Entry.scaledDst, Entry.colorBuf, Entry.color, Entry.colorBuf, Entry.constant]⟩,
        ⟨.alphaFactor s.attachment.srcAlpha,
          [Entry.scaledSrc, Entry.color, Entry.color, Entry.colorBuf, Entry.constant]⟩,
        ⟨.alphaFactor s.attachment.dstAlpha,
          [Entry.scaledDst, Entry.colorBuf, Entry.color, Entry.colorBuf, Entry.constant]⟩,
        ⟨.rgbEquation s.attachment.eqRgb, [Entry.combined, Entry.scaledSrc, Entry.scaledDst]⟩,
        ⟨.alphaEquation s.attachment.eqAlpha, [Entry.combined, Entry.scaledSrc, Entry.scaledDst]⟩,
        ⟨.mask s.attachment.colorMask, [Entry.colorBuf, Entry.combined]⟩] := by
  simp [calls, hactive]

/-- The first four calls scale the source and the destination. -/
theorem execAll_factors (depth : Binary32) (hactive : s.blendingActive = true)
    (given : Given st.memory src dst constant stored) (fuel : Nat) :
    ∃ final, execAll (programOf s) (invoke (programOf s) (fuel + 8)) (entryActivation s depth) st
        (((calls s).take 4).map (HelperCall.stmt (helpers s))) = .ok { st with memory := final } ∧
      Given final src dst constant stored ∧
      final.Has 4 (scaled s.attachment.srcRgb s.attachment.srcAlpha src src dst constant) ∧
      final.Has 5 (scaled s.attachment.dstRgb s.attachment.dstAlpha dst src dst constant) := by
  have hcalls := calls_eq hactive
  obtain ⟨m₁, run₁, fills₁⟩ := exec_factor depth st hactive (.rgbFactor s.attachment.srcRgb)
    rgbLanes rfl (by decide) (i := 0) (by decide) Entry.color
    (by rw [hcalls]; exact List.mem_cons_self) rfl (by decide) given given.src fuel
  have given₁ := given.fills (by decide) fills₁
  obtain ⟨m₂, run₂, fills₂⟩ := exec_factor depth { st with memory := m₁ } hactive
    (.rgbFactor s.attachment.dstRgb) rgbLanes rfl (by decide) (i := 1) (by decide) Entry.colorBuf
    (by simp [hcalls, Entry.scaledDst]) rfl (by decide) given₁ given₁.dst fuel
  have given₂ := given₁.fills (by decide) fills₂
  obtain ⟨m₃, run₃, fills₃⟩ := exec_factor depth { st with memory := m₂ } hactive
    (.alphaFactor s.attachment.srcAlpha) alphaLanes rfl (by decide) (i := 0) (by decide) Entry.color
    (by simp [hcalls, Entry.scaledSrc]) rfl (by decide) given₂ given₂.src fuel
  have given₃ := given₂.fills (by decide) fills₃
  obtain ⟨m₄, run₄, fills₄⟩ := exec_factor depth { st with memory := m₃ } hactive
    (.alphaFactor s.attachment.dstAlpha) alphaLanes rfl (by decide) (i := 1) (by decide)
    Entry.colorBuf (by simp [hcalls, Entry.scaledDst]) rfl (by decide) given₃ given₃.dst fuel
  have given₄ := given₃.fills (by decide) fills₄
  have h₁ := given₁.size
  have h₂ := given₂.size
  have h₃ := given₃.size
  refine ⟨m₄, ?_, given₄, ?_, ?_⟩
  · rw [hcalls]
    exact (execAll_step run₁).trans ((execAll_step run₂).trans ((execAll_step run₃).trans
      (execAll_step run₄)))
  · have complete : m₃.Has 4 (scaled s.attachment.srcRgb s.attachment.srcAlpha src src dst
        constant) :=
      has_of_halves fills₁ (fun lane => fills₂.spares.kept 4 (show 4 < m₁.size by omega) (by decide)
        lane) (show 4 < m₂.size by omega) fills₃ (scaled_get _ _ _ _ _ _)
    exact fills₄.spares.has (show 4 < m₃.size by omega) (by decide) complete
  · exact has_of_halves fills₂ (fun lane => fills₃.spares.kept 5 (show 5 < m₂.size by omega)
      (by decide) lane) (show 5 < m₃.size by omega) fills₄ (scaled_get _ _ _ _ _ _)

/-- The next two combine them. -/
theorem execAll_equations (depth : Binary32) (st : Store) (hactive : s.blendingActive = true)
    (given : Given st.memory src dst constant stored)
    (hscaledSrc : st.memory.Has 4
      (scaled s.attachment.srcRgb s.attachment.srcAlpha src src dst constant))
    (hscaledDst : st.memory.Has 5
      (scaled s.attachment.dstRgb s.attachment.dstAlpha dst src dst constant)) (fuel : Nat) :
    ∃ final, execAll (programOf s) (invoke (programOf s) (fuel + 8)) (entryActivation s depth) st
        ((((calls s).drop 4).take 2).map (HelperCall.stmt (helpers s)))
        = .ok { st with memory := final } ∧
      Given final src dst constant stored ∧
      final.Has 6 (s.attachment.blend src dst constant) := by
  have hcalls := calls_eq hactive
  obtain ⟨m₁, run₁, fills₁⟩ := exec_equation depth st hactive
    (.rgbEquation s.attachment.eqRgb) rgbLanes rfl (by decide) (by decide)
    (by simp [hcalls]) given.size hscaledSrc hscaledDst fuel
  have given₁ := given.fills (by decide) fills₁
  have hsize := given.size
  obtain ⟨m₂, run₂, fills₂⟩ := exec_equation depth { st with memory := m₁ } hactive
    (.alphaEquation s.attachment.eqAlpha) alphaLanes rfl (by decide) (by decide)
    (by simp [hcalls]) given₁.size (fills₁.spares.has (by omega) (by decide) hscaledSrc)
    (fills₁.spares.has (by omega) (by decide) hscaledDst) fuel
  refine ⟨m₂, ?_, given₁.fills (by decide) fills₂, ?_⟩
  · rw [hcalls]
    exact (execAll_step run₁).trans (execAll_step run₂)
  · refine has_of_halves fills₁ (fun _ => rfl) (by rw [given₁.size]; decide) fills₂ fun i => ?_
    have hblend : (s.attachment.blend src dst constant).get i = (s.attachment.equation i).combine
        ((s.attachment.srcFactor i).scale (src.get i) src dst constant i)
        ((s.attachment.dstFactor i).scale (dst.get i) src dst constant i) := by
      simp [BlendAttachment.blend]
    rw [hblend, scaled_get, scaled_get, BlendAttachment.equation, BlendAttachment.srcFactor,
      BlendAttachment.dstFactor]
    by_cases hi : i = Color.alphaChannel
    · simp only [if_pos hi]
    · simp only [if_neg hi]

/-- The calls of a state that blends leave in the first array the blended
colour, through the mask. -/
theorem execAll_blend (hactive : s.blendingActive = true)
    (given : Given st.memory src dst constant stored) (fuel : Nat) :
    ∃ final, execAll (programOf s) (invoke (programOf s) (fuel + 8)) (entryActivation s depth) st
        ((calls s).map (HelperCall.stmt (helpers s))) = .ok { st with memory := final } ∧
      final.Has 0 (Color.select s.attachment.colorMask.channels dst
        (s.attachment.blend src dst constant)) ∧
      final.lanes 1 0 = some stored := by
  have hcalls := calls_eq hactive
  obtain ⟨m₁, run₁, given₁, hscaledSrc, hscaledDst⟩ := execAll_factors depth hactive given fuel
  obtain ⟨m₂, run₂, given₂, hcombined⟩ := execAll_equations depth
    { st with memory := m₁ } hactive given₁ hscaledSrc hscaledDst fuel
  have hsize := given₂.size
  have hmask : ⟨.mask s.attachment.colorMask, [Entry.colorBuf, Entry.combined]⟩ ∈ calls s := by
    simp [hcalls]
  obtain ⟨m₃, run₃, hmasked, spares⟩ := exec_mask depth { st with memory := m₂ } hmask
    (address_temp hactive (by decide)) (by decide) (show 6 < m₂.size by omega)
    given₂.dst hcombined fuel
  refine ⟨m₃, ?_, hmasked, (spares.kept 1 (show 1 < m₂.size by omega) (by decide) 0).trans
    given₂.stored⟩
  have hsplit : (calls s).map (HelperCall.stmt (helpers s))
      = ((calls s).take 4).map (HelperCall.stmt (helpers s))
        ++ ((((calls s).drop 4).take 2).map (HelperCall.stmt (helpers s))
          ++ [HelperCall.stmt (helpers s)
            ⟨.mask s.attachment.colorMask, [Entry.colorBuf, Entry.combined]⟩]) := by
    rw [hcalls]
    rfl
  rw [hsplit, execAll_append run₁, execAll_append run₂]
  exact execAll_step run₃

/-! ## Whole programs -/

/-- What the entry of a blend program is run on. -/
def inputs (pixel : Pixel) (input : BlendInput) : List Input :=
  [.array pixel.color, .cell pixel.depth, .array input.color, .scalar input.depth,
    .array input.constant]

/-- The arrays of the entry before the run. -/
theorem bind_inputs (pixel : Pixel) (input : BlendInput) :
    ∃ mem, bind (inputs pixel input) .empty
        = ([.array 0, .array 1, .array 2, .scalar input.depth, .array 3], mem) ∧
      mem.size = 4 ∧ mem.Has 0 pixel.color ∧ mem.lanes 1 0 = some pixel.depth ∧
      mem.Has 2 input.color ∧ mem.Has 3 input.constant := by
  have array : ∀ (color : Color) (lane : Fin 4),
      (Input.array color).lanes lane = some (color.get lane) := by
    intro color lane
    simp [Input.lanes, Vector.get]
  exact ⟨_, rfl, rfl, array _, rfl, array _, array _⟩

/-- The calls of any state leave in the first array what the state's meaning
says. -/
theorem execAll_calls (st : Store) (pixel : Pixel) (input : BlendInput)
    (hsize : st.memory.size = if s.blendingActive then 7 else 4)
    (hdst : st.memory.Has 0 pixel.color) (hstored : st.memory.lanes 1 0 = some pixel.depth)
    (hsrc : st.memory.Has 2 input.color) (hconstant : st.memory.Has 3 input.constant)
    (fuel : Nat) :
    ∃ final, execAll (programOf s) (invoke (programOf s) (fuel + 8))
        (entryActivation s input.depth) st ((calls s).map (HelperCall.stmt (helpers s)))
        = .ok { st with memory := final } ∧
      final.Has 0 (s.evaluate pixel input).color ∧ final.lanes 1 0 = some pixel.depth := by
  by_cases hactive : s.blendingActive = true
  · rw [if_pos hactive] at hsize
    have hcolor : (s.evaluate pixel input).color = Color.select s.attachment.colorMask.channels
        pixel.color (s.attachment.blend input.color pixel.color input.constant) := by
      simp only [PipelineState.evaluate, if_pos hactive]
    rw [hcolor]
    exact execAll_blend hactive ⟨hsize, hdst, hstored, hsrc, hconstant⟩ fuel
  · rw [if_neg hactive] at hsize
    have hcolor : (s.evaluate pixel input).color
        = Color.select s.attachment.colorMask.channels pixel.color input.color := by
      simp only [PipelineState.evaluate, if_neg hactive]
    have hcalls : calls s = [⟨.mask s.attachment.colorMask, [Entry.colorBuf, Entry.color]⟩] := by
      simp [calls, hactive]
    have hmask : ⟨.mask s.attachment.colorMask, [Entry.colorBuf, Entry.color]⟩ ∈ calls s := by
      simp [hcalls]
    obtain ⟨final, hrun, hmasked, spares⟩ := exec_mask input.depth st hmask rfl (by decide)
      (by omega)
      hdst hsrc fuel
    refine ⟨final, ?_, hcolor ▸ hmasked, (spares.kept 1 (by omega) (by decide) 0).trans hstored⟩
    rw [hcalls]
    exact execAll_step hrun

/-- **The blend program of a state does what the state means.** -/
theorem run_programOf (s : PipelineState) (pixel : Pixel) (input : BlendInput) (fuel : Nat) :
    ∃ final, run (programOf s) (fuel + 10) (inputs pixel input) = .ok final ∧
      final.Has 0 (s.evaluate pixel input).color ∧
      final.lanes 1 0 = some (s.evaluate pixel input).depth := by
  obtain ⟨mem, hbind, hsize, hdst, hstored, hsrc, hconstant⟩ := bind_inputs pixel input
  have htemps : (entryRoutine s).temps = if s.blendingActive then 3 else 0 := rfl
  let start : Store := ⟨fun _ => none, mem.extend (entryRoutine s).temps⟩
  have hstoredStart : start.memory.lanes 1 0 = some pixel.depth := by
    change (if mem.size ≤ 1 then fun _ => none else mem.lanes 1) 0 = _
    rw [if_neg (by omega), hstored]
  obtain ⟨final, hcalls, hcolor, hdepth⟩ := execAll_calls (s := s) start pixel input
    (by
      change mem.size + (entryRoutine s).temps = _
      rw [hsize, htemps]
      split <;> rfl)
    (hdst.extend (by omega) _) hstoredStart (hsrc.extend (by omega) _)
    (hconstant.extend (by omega) _) (fuel + 1)
  -- the depth is stored last, if at all
  obtain ⟨stored, hrun, hcolorStored, hdepthStored⟩ : ∃ stored,
      execAll (programOf s) (invoke (programOf s) (fuel + 9)) (entryActivation s input.depth) start
        ((calls s).map (HelperCall.stmt (helpers s)) ++
          if s.depthWrite then [.assign (.lane Entry.depthBuf 0) (.param Entry.depthParam)] else [])
        = .ok { start with memory := stored } ∧
      stored.Has 0 (s.evaluate pixel input).color ∧
      stored.lanes 1 0 = some (s.evaluate pixel input).depth := by
    rw [execAll_append hcalls]
    by_cases hwrite : s.depthWrite = true
    · have hdepth : (s.evaluate pixel input).depth = input.depth := by
        simp only [PipelineState.evaluate, if_pos hwrite]
      rw [if_pos hwrite, hdepth]
      exact ⟨final.write 1 0 input.depth,
        execAll_step (exec_assignLane Entry.depthBuf 0 rfl rfl), hcolor, rfl⟩
    · have hkept : (s.evaluate pixel input).depth = pixel.depth := by
        simp only [PipelineState.evaluate, if_neg hwrite]
      rw [if_neg hwrite, hkept]
      exact ⟨final, rfl, hcolor, hdepth⟩
  refine ⟨stored.shrink mem.size, ?_, hcolorStored, hdepthStored⟩
  have hinvoke : invoke (programOf s) (fuel + 10) (entryRoutine s)
      [.array 0, .array 1, .array 2, .scalar input.depth, .array 3] mem
      = .ok (stored.shrink mem.size) := by
    have hreturn := @execFrom_return _ _ _ _ _ (fuel + 8) _ 0 rfl hrun
    rw [invoke, if_neg (by simp [entryRoutine]), hsize]
    exact congrArg (· >>= _) hreturn
  rw [run, show (programOf s).entry = some (helpers s).length from rfl, Option.bind_some,
    routine?_entry]
  simp only [hbind]
  exact hinvoke

end PixelPipeline.Blend
