import Mathlib.Data.List.Basic
import PixelPipeline.Blend.Emitter

/-!
# What the emitter writes

Every helper's steps drive a builder into the helper's routine, with every block
closed, so that building it never fails.  A helper that was asked for keeps its
number, and one that is new gets the next: the helpers of the module are those
that were asked for, each once, in the order in which they were first asked for.

* `buildHelper_run` — building a helper adds its routine;
* `helper_run` — asking for a helper adds it unless it is there, and gives its
  place among the helpers;
* `emit_eq` — the emitter writes the blend program of every state.
-/

namespace PixelPipeline.Ir.Builder

variable {name : String} {params : List ParamKind} {vars temps : Nat} {done : List Block}
  {stmts : List Stmt}

/-! ## Builders that write at the end -/

/-- A builder that writes into its last block, after other blocks. -/
def writing (name : String) (params : List ParamKind) (vars temps : Nat) (done : List Block)
    (stmts : List Stmt) : Builder :=
  ⟨⟨name, params, vars, temps, done ++ [⟨stmts, none⟩]⟩, done.length, none⟩

/-- A builder without a misuse that has written these blocks. -/
def written (name : String) (params : List ParamKind) (vars temps : Nat) (blocks : List Block)
    (current : Nat) : Builder :=
  ⟨⟨name, params, vars, temps, blocks⟩, current, none⟩

/-- A block that is added is empty and open. -/
theorem default_block : (default : Block) = ⟨[], none⟩ := rfl

/-- Steps run after the steps before them. -/
theorem run_append (b : Builder) (steps more : List BuildStep) :
    b.run (steps ++ more) = (b.run steps).run more :=
  List.foldl_append

/-- The first step comes before the rest. -/
theorem run_cons (b : Builder) (step : BuildStep) (steps : List BuildStep) :
    b.run (step :: steps) = (b.apply step).run steps := rfl

/-- A statement goes to the end of the last block. -/
theorem push_writing (stmt : Stmt) :
    (writing name params vars temps done stmts).push stmt
      = writing name params vars temps done (stmts ++ [stmt]) := by
  simp [writing, push, setCurrent]

/-- Statements go to the end of the last block, in order. -/
theorem run_pushes (pushed : List Stmt) :
    (writing name params vars temps done stmts).run (pushed.map .push)
      = writing name params vars temps done (stmts ++ pushed) := by
  induction pushed generalizing stmts with
  | nil =>
    rw [List.append_nil]
    rfl
  | cons stmt rest ih =>
    rw [List.map_cons, run_cons, apply, push_writing, ih, List.append_assoc]
    rfl

/-- An end closes the last block. -/
theorem close_writing (done : List Block) (terminator : Terminator) :
    (writing name params vars temps done stmts).close terminator
      = written name params vars temps (done ++ [⟨stmts, some terminator⟩]) done.length := by
  simp [writing, written, close, setCurrent]

/-- Statements, one for each of some values, and a return make up the last block. -/
theorem run_stores_map {α : Type} (stmtOf : α → Stmt) (l : List α) :
    (writing name params vars temps done []).run
        ((l.map fun x => .push (stmtOf x)) ++ [.close .ret])
      = written name params vars temps (done ++ [⟨l.map stmtOf, some .ret⟩]) done.length := by
  have hmap : (l.map fun x => BuildStep.push (stmtOf x)) = (l.map stmtOf).map .push :=
    List.map_map.symm
  rw [hmap, run_append, run_pushes]
  exact close_writing done .ret

/-- A builder that closed its blocks finishes. -/
theorem finish_written (name : String) (params : List ParamKind) (vars temps current : Nat)
    {blocks : List Block} (hclosed : ∀ block ∈ blocks, block.terminator.isSome) (m : Module) :
    (written name params vars temps blocks current).finish m
      = .ok ({ m with routines := m.routines ++ [⟨name, params, vars, temps, blocks⟩] },
          m.routines.length) := by
  have hopen : (written name params vars temps blocks current).openBlock? = none := by
    rw [openBlock?, List.findIdx?_eq_none_iff]
    intro block hblock
    simpa using hclosed block hblock
  rw [finish, hopen]
  rfl

end PixelPipeline.Ir.Builder

namespace PixelPipeline.Blend

open Ir Ir.Builder

variable {name : String} {params : List ParamKind} {done : List Block}

/-! ## The steps of a helper -/

/-- A new builder writes into its only block. -/
theorem start_eq (name : String) (params : List ParamKind) :
    Builder.start name params = writing name params 0 0 [] [] := rfl

/-- The steps drive a new builder into the routine, and close all its blocks. -/
def Writes (name : String) (params : List ParamKind) (steps : List BuildStep) (r : Routine) :
    Prop :=
  ∃ vars temps blocks current,
    (Builder.start name params).run steps = written name params vars temps blocks current ∧
    r = ⟨name, params, vars, temps, blocks⟩ ∧ ∀ block ∈ blocks, block.terminator.isSome

/-- Computing the saturate factor closes the first block and the two that assign, and goes
on in the last one. -/
theorem run_saturateSteps (name : String) (params : List ParamKind) :
    (Builder.start name params).run saturateSteps
      = writing name params 1 0 (saturateBlocks []).dropLast [] := by
  simp [Builder.run, apply, addVar, addBlock, close, push, setCurrent, switchTo, start_eq,
    writing, saturateSteps, saturateBlocks, default_block]

/-- The steps of a factor helper write its routine. -/
theorem factorSteps_writes (name : String) (factor : BlendFactor) (lanes : List Nat) :
    Writes name FactorRoutine.params (factorSteps factor lanes)
      (factorRoutine name factor lanes) := by
  by_cases hsaturate : factor = .srcAlphaSaturate
  · refine ⟨1, 0, _, 3, ?_, by rw [factorRoutine, if_pos hsaturate], by simp [saturateBlocks]⟩
    rw [factorSteps, if_pos hsaturate, List.append_assoc, run_append, run_saturateSteps]
    exact run_stores_map _ _
  · refine ⟨0, 0, _, 0, ?_, by rw [factorRoutine, if_neg hsaturate], by simp⟩
    rw [factorSteps, if_neg hsaturate, List.nil_append, start_eq]
    exact run_stores_map _ _

/-- Choosing a lane closes the last block and the two that store, and goes on in
a new one. -/
theorem run_choose (op : CmpOp) (lane : Nat) (rest : List Nat) :
    (writing name params 0 0 done []).run (chooseSteps op done.length (lane :: rest))
      = (writing name params 0 0 (done ++ (chooseBlocks op done.length (lane :: rest)).take 3)
          []).run (chooseSteps op (done.length + 3) rest) := by
  rw [chooseSteps, run_append]
  refine congrArg (fun b : Builder => b.run _) ?_
  simp [Builder.run, apply, addBlock, close, push, setCurrent, switchTo, writing, chooseBlocks,
    default_block]

/-- The steps that choose lane by lane write the blocks that do. -/
theorem run_chooseSteps (name : String) (params : List ParamKind) (done : List Block) (op : CmpOp)
    (lanes : List Nat) :
    ∃ current, (writing name params 0 0 done []).run (chooseSteps op done.length lanes)
      = written name params 0 0 (done ++ chooseBlocks op done.length lanes) current := by
  induction lanes generalizing done with
  | nil => exact ⟨done.length, close_writing done .ret⟩
  | cons lane rest ih =>
    rw [run_choose]
    -- the lane has added three closed blocks, and the rest starts behind them
    obtain ⟨current, hrun⟩ := ih (done ++ (chooseBlocks op done.length (lane :: rest)).take 3)
    exact ⟨current, by simpa [chooseBlocks] using hrun⟩

/-- The blocks that choose lane by lane are closed. -/
theorem chooseBlocks_closed (op : CmpOp) (first : Nat) (lanes : List Nat) :
    ∀ block ∈ chooseBlocks op first lanes, block.terminator.isSome := by
  induction lanes generalizing first with
  | nil => simp [chooseBlocks]
  | cons lane rest ih =>
    simp only [chooseBlocks, List.forall_mem_cons]
    exact ⟨rfl, rfl, rfl, ih _⟩

/-- The steps of an equation helper write its routine. -/
theorem equationSteps_writes (name : String) (equation : BlendEquation) (lanes : List Nat) :
    Writes name EquationRoutine.params (equationSteps equation lanes)
      (equationRoutine name equation lanes) := by
  cases hshape : EquationShape.of equation with
  | choose op =>
    obtain ⟨current, hrun⟩ := run_chooseSteps name EquationRoutine.params [] op lanes
    refine ⟨0, 0, _, current, ?_, by rw [equationRoutine, hshape], chooseBlocks_closed op 0 lanes⟩
    rw [equationSteps, hshape, start_eq]
    exact hrun
  | compute op swapped =>
    refine ⟨0, 0, _, 0, ?_, by rw [equationRoutine, hshape], by simp⟩
    rw [equationSteps, hshape, start_eq]
    exact run_stores_map _ _

/-- The steps of a mask helper write its routine. -/
theorem maskSteps_writes (mask : ColorMask) :
    Writes ("color_mask_" ++ Hex.digits mask.bits.toNat) (List.replicate 2 .vec4Ptr)
      (maskSteps mask) (maskRoutine mask) := by
  refine ⟨0, 0, _, 0, ?_, rfl, by simp⟩
  rw [maskSteps, start_eq]
  exact run_stores_map _ _

/-! ## Building -/

variable {e : Emitter} {steps : List BuildStep} {r : Routine}

/-- An emitter with one routine more. -/
def Emitter.add (e : Emitter) (r : Routine) : Emitter :=
  { e with module := { e.module with routines := e.module.routines ++ [r] } }

namespace Emit

/-- Work goes on with the answer and the emitter of the work before it. -/
theorem run_bind_ok {α β : Type} {work : Emit α} {next : α → Emit β} {e e' : Emitter} {x : α}
    (h : work.run e = .ok (x, e')) : (work >>= next).run e = (next x).run e' := by
  rw [StateT.run_bind, h]
  rfl

/-- Steps that write a routine add it, under the next number. -/
theorem build_run (hwrites : Writes name params steps r) (e : Emitter) :
    (build name params steps).run e = .ok (e.module.routines.length, e.add r) := by
  obtain ⟨vars, temps, blocks, current, hrun, hroutine, hclosed⟩ := hwrites
  have hfinish := finish_written name params vars temps current hclosed e.module
  rw [← hrun, ← hroutine] at hfinish
  unfold build
  simp only [StateT.run_bind, StateT.run_get, pure_bind, hfinish]
  rfl

/-- Building a helper adds its routine, under the next number. -/
theorem buildHelper_run (h : Helper) (e : Emitter) :
    (buildHelper h).run e = .ok (e.module.routines.length, e.add h.routine) := by
  cases h with
  | rgbFactor f => exact build_run (factorSteps_writes _ f rgbLanes) e
  | alphaFactor f => exact build_run (factorSteps_writes _ f alphaLanes) e
  | rgbEquation q => exact build_run (equationSteps_writes _ q rgbLanes) e
  | alphaEquation q => exact build_run (equationSteps_writes _ q alphaLanes) e
  | mask m => exact build_run (maskSteps_writes m) e

end Emit

/-! ## Asking for helpers -/

/-- The emitter after these helpers were asked for. -/
def Emitter.after (asked : List Helper) : Emitter :=
  ⟨⟨asked.eraseDups.map Helper.routine, none⟩, asked.eraseDups.zipIdx⟩

/-- Looking up a helper among numbered ones gives its place. -/
theorem lookup_zipIdx (h : Helper) (known : List Helper) (first : Nat) :
    (known.zipIdx first).lookup h
      = if h ∈ known then some (first + known.idxOf h) else none := by
  induction known generalizing first with
  | nil => rfl
  | cons k rest ih =>
    rw [List.zipIdx_cons, List.lookup_cons]
    by_cases hk : h = k
    · simp [hk]
    · rw [beq_false_of_ne hk, List.idxOf_cons_ne rest fun heq => hk heq.symm]
      have hmem : h ∈ k :: rest ↔ h ∈ rest := by simp [hk]
      simp only [ih, hmem, Nat.succ_eq_add_one, Nat.add_comm, Nat.add_left_comm]

/-- The helpers that were asked for have their places as numbers, and no others have any. -/
theorem Emitter.lookup_after (asked : List Helper) (h : Helper) :
    (Emitter.after asked).numbers.lookup h
      = if h ∈ asked then some (asked.eraseDups.idxOf h) else none := by
  have hlookup := lookup_zipIdx h asked.eraseDups 0
  simp only [List.mem_eraseDups, Nat.zero_add] at hlookup
  exact hlookup

/-- Asking for one more helper adds it, unless it was asked for before. -/
theorem eraseDups_concat (asked : List Helper) (h : Helper) :
    (asked ++ [h]).eraseDups
      = if h ∈ asked then asked.eraseDups else asked.eraseDups ++ [h] := by
  rw [List.eraseDups_append]
  by_cases hmem : h ∈ asked
  · simp [hmem, List.removeAll]
  · simp [hmem, List.removeAll, List.eraseDups_cons]

/-- A helper that was asked for keeps its number. -/
theorem idxOf_eraseDups_append {asked : List Helper} {h : Helper} (hmem : h ∈ asked)
    (more : List Helper) :
    (asked ++ more).eraseDups.idxOf h = asked.eraseDups.idxOf h := by
  rw [List.eraseDups_append]
  exact List.idxOf_append_of_mem (List.mem_eraseDups.mpr hmem)

namespace Emit

/-- **Asking for a helper** adds it unless it is there, and gives its place. -/
theorem helper_run (asked : List Helper) (h : Helper) :
    (helper h).run (Emitter.after asked)
      = .ok ((asked ++ [h]).eraseDups.idxOf h, Emitter.after (asked ++ [h])) := by
  unfold helper
  simp only [StateT.run_bind, StateT.run_get, pure_bind, Emitter.lookup_after]
  by_cases hmem : h ∈ asked
  · -- asking again adds nothing, so the places are those from before
    have hsame : Emitter.after (asked ++ [h]) = Emitter.after asked := by
      rw [Emitter.after, eraseDups_concat, if_pos hmem]
      rfl
    rw [if_pos hmem, hsame, idxOf_eraseDups_append hmem]
    rfl
  · -- a new helper is built under the next number, which is its place behind the others
    have hnew : (asked ++ [h]).eraseDups = asked.eraseDups ++ [h] := by
      rw [eraseDups_concat, if_neg hmem]
    have habsent : h ∉ asked.eraseDups := fun hin => hmem (List.mem_eraseDups.mp hin)
    have hplace : (asked ++ [h]).eraseDups.idxOf h = asked.eraseDups.length := by
      rw [hnew, List.idxOf_append_of_notMem habsent]
      simp
    have hafter : Emitter.after (asked ++ [h])
        = ⟨⟨asked.eraseDups.map Helper.routine ++ [h.routine], none⟩,
          asked.eraseDups.zipIdx ++ [(h, asked.eraseDups.length)]⟩ := by
      simp [Emitter.after, hnew, List.zipIdx_append]
    have hlength : (Emitter.after asked).module.routines.length = asked.eraseDups.length :=
      List.length_map _
    rw [if_neg hmem, hplace, hafter]
    dsimp only
    rw [run_bind_ok (buildHelper_run h _), hlength]
    rfl

/-- Asking for helpers one after the other numbers them all. -/
theorem mapM_helper_run (asked : List Helper) (cs : List HelperCall) :
    (cs.mapM fun c => helper c.helper).run (Emitter.after asked)
      = .ok (cs.map fun c => (asked ++ cs.map HelperCall.helper).eraseDups.idxOf c.helper,
          Emitter.after (asked ++ cs.map HelperCall.helper)) := by
  induction cs generalizing asked with
  | nil =>
    rw [List.map_nil, List.map_nil, List.append_nil]
    rfl
  | cons c rest ih =>
    have hlist : asked ++ (c :: rest).map HelperCall.helper
        = (asked ++ [c.helper]) ++ rest.map HelperCall.helper := by simp
    have hmem : c.helper ∈ asked ++ [c.helper] := by simp
    have hkeeps := idxOf_eraseDups_append hmem (rest.map HelperCall.helper)
    rw [List.mapM_cons, run_bind_ok (helper_run asked c.helper), run_bind_ok (ih _), hlist,
      List.map_cons, hkeeps]
    rfl

end Emit

/-! ## The entry -/

/-- The steps of a state's entry write its routine. -/
theorem entrySteps_writes (s : PipelineState) :
    Writes "fragment_set" Entry.params
      (entrySteps s ((calls s).map fun c => (helpers s).idxOf c.helper)) (entryRoutine s) := by
  have hcalls : (calls s).zipWith
        (fun c number => BuildStep.push (.call number (c.args.map .array)))
        ((calls s).map fun c => (helpers s).idxOf c.helper)
      = ((calls s).map (HelperCall.stmt (helpers s))).map .push := by
    rw [List.zipWith_map_right, List.zipWith_self, List.map_map]
    rfl
  have htemps : (Builder.start "fragment_set" Entry.params).run
        (if s.blendingActive then [.addTemp, .addTemp, .addTemp] else [])
      = writing "fragment_set" Entry.params 0 (if s.blendingActive then 3 else 0) [] [] := by
    cases s.blendingActive <;> rfl
  have hdepth : (if s.depthWrite then
        [BuildStep.push (.assign (.lane Entry.depthBuf 0) (.param Entry.depthParam))] else [])
      = (if s.depthWrite then [Stmt.assign (.lane Entry.depthBuf 0) (.param Entry.depthParam)]
          else []).map .push := by
    cases s.depthWrite <;> rfl
  -- calls and the stored depth are statements of one block, pushed one after the other
  refine ⟨0, if s.blendingActive then 3 else 0, _, 0, ?_, rfl, by simp⟩
  rw [entrySteps, hcalls, hdepth]
  simp only [List.append_assoc, run_append, htemps]
  rw [run_pushes, run_pushes, List.nil_append]
  exact close_writing [] .ret

namespace Emit

/-- The helpers that a state's entry asks for, in order. -/
def asked (s : PipelineState) : List Helper :=
  .mask s.attachment.colorMask :: (calls s).map HelperCall.helper

/-- The emitter ends with the program of the state and a number for every helper. -/
theorem entry_run (s : PipelineState) :
    (entry s).run ⟨default, []⟩ = .ok ((), ⟨programOf s, (helpers s).zipIdx⟩) := by
  have hmask := Emit.helper_run [] (.mask s.attachment.colorMask)
  have hcalls : ((calls s).mapM fun c => helper c.helper).run
        (Emitter.after [.mask s.attachment.colorMask])
      = .ok ((calls s).map fun c => (helpers s).idxOf c.helper, Emitter.after (asked s)) :=
    Emit.mapM_helper_run [.mask s.attachment.colorMask] (calls s)
  have hentry := Emit.build_run (entrySteps_writes s) (Emitter.after (asked s))
  have hlength : (Emitter.after (asked s)).module.routines.length = (helpers s).length :=
    List.length_map _
  unfold entry
  change StateT.run _ (Emitter.after []) = _
  rw [run_bind_ok hmask, List.nil_append, run_bind_ok hcalls, run_bind_ok hentry, hlength]
  rfl

end Emit

/-- **The emitter writes the blend program** of every state: no builder refuses a
routine, and the module has the routines and the entry of the program. -/
theorem emit_eq (s : PipelineState) : emit s = .ok (programOf s) := by
  unfold emit
  rw [Emit.entry_run]
  rfl

end PixelPipeline.Blend
