import PixelPipeline.Proofs.Lowering.Storage
import PixelPipeline.Proofs.Machine.Operands

/-!
# What expanded code leaves alone

A routine may use again what its callees have used, because their code writes nothing that is in
use around it: only registers from the first free one on, and only slots from the first free one
on or slots that were passed by reference.  So the frame of a caller is as it was after a call,
but for the arrays that it passed.

`Op.Confined` says this of one operation.  Values write temporaries (`lowerValue_confined`),
statements also what their frame owns (`Frame.Owns`), and the frame of a routine owns what lies
above the storage on which it is expanded, together with the arrays that it received
(`Routine.Received`).  `expandRoutine_confined` goes by induction on the nesting of calls.
-/

namespace PixelPipeline.Machine.Op

variable {σ τ : Type}

/-- The register that an operation writes. -/
def written? : Op τ → Option Nat
  | .const dst _ | .load dst _ _ | .move dst _ | .binary _ dst _ _ => some dst
  | .store .. | .jump _ | .branch .. | .ret => none

/-- The slot that an operation stores to. -/
def stored? : Op τ → Option Nat
  | .store slot _ _ => some slot
  | _ => none

/-- Renaming targets leaves the register that is written. -/
@[simp] theorem written?_mapTargets (g : σ → τ) (op : Op σ) :
    (op.mapTargets g).written? = op.written? := by
  cases op <;> rfl

/-- Renaming targets leaves the slot that is written. -/
@[simp] theorem stored?_mapTargets (g : σ → τ) (op : Op σ) :
    (op.mapTargets g).stored? = op.stored? := by
  cases op <;> rfl

/-- The operation writes no register below `register`, and stores to allowed slots only. -/
structure Confined (register : Nat) (allowed : Nat → Prop) (op : Op τ) : Prop where
  written : ∀ r, op.written? = some r → register ≤ r
  stored : ∀ slot, op.stored? = some slot → allowed slot

variable {register : Nat} {allowed : Nat → Prop} {op : Op τ}

/-- An operation that writes a register stores to no slot. -/
theorem Confined.of_written {r : Nat} (hr : op.written? = some r) (hle : register ≤ r) :
    op.Confined register allowed := by
  cases op with
  | const | load | move | binary =>
    constructor
    · intro r' hr'
      rw [hr] at hr'
      exact Option.some.inj hr' ▸ hle
    · intro slot hslot
      cases hslot
  | store | jump | branch | ret => cases hr

/-- An operation that writes nothing at all. -/
theorem Confined.of_none (hwritten : op.written? = none) (hstored : op.stored? = none) :
    op.Confined register allowed := by
  constructor
  · intro r hr
    rw [hwritten] at hr
    cases hr
  · intro slot hslot
    rw [hstored] at hslot
    cases hslot

/-- A store into an allowed slot is confined. -/
theorem Confined.store {slot lane src : Nat} (hslot : allowed slot) :
    (.store slot lane src : Op τ).Confined register allowed := by
  constructor
  · intro r hr
    cases hr
  · intro slot' hslot'
    obtain rfl : slot = slot' := Option.some.inj hslot'
    exact hslot

end PixelPipeline.Machine.Op

namespace PixelPipeline.Ir

open Machine Lower

variable {σ τ : Type} {register : Nat} {allowed : Nat → Prop} {s t : Storage} {f : Frame}
  {code : Fragment} {r : Nat}

/-! ## Code -/

/-- All operations of the code are confined. -/
def Confined (register : Nat) (allowed : Nat → Prop) (code : List (Op τ)) : Prop :=
  ∀ op ∈ code, op.Confined register allowed

namespace Confined

theorem nil : Confined register allowed ([] : List (Op τ)) :=
  fun _ hop => absurd hop List.not_mem_nil

theorem one {op : Op τ} (h : op.Confined register allowed) : Confined register allowed [op] := by
  intro op' hop
  rwa [List.mem_singleton.mp hop]

/-- Confined code behind confined code is confined. -/
theorem append {front back : List (Op τ)} (hfront : Confined register allowed front)
    (hback : Confined register allowed back) : Confined register allowed (front ++ back) := by
  intro op hop
  obtain hop | hop := List.mem_append.mp hop
  · exact hfront op hop
  · exact hback op hop

/-- What is confined to less is confined to more. -/
theorem mono {code : List (Op τ)} {more : Nat → Prop} {lower : Nat}
    (h : Confined register allowed code) (hregister : lower ≤ register)
    (hallowed : ∀ slot, allowed slot → more slot) : Confined lower more code :=
  fun op hop => ⟨fun r hr => Nat.le_trans hregister ((h op hop).written r hr),
    fun slot hslot => hallowed slot ((h op hop).stored slot hslot)⟩

/-- Code that stores nothing stores to allowed slots only. -/
theorem of_storeless {code : List (Op τ)} {lower : Nat} (hregister : lower ≤ register)
    (h : Confined register (fun _ => False) code) : Confined lower allowed code :=
  h.mono hregister fun _ => False.elim

/-- Targets do not matter. -/
theorem of_mapTargets {code : List (Op σ)} {placed : List (Op τ)}
    (h : ∀ op ∈ placed, ∃ op' ∈ code, ∃ g, op = op'.mapTargets g)
    (hcode : Confined register allowed code) : Confined register allowed placed := by
  intro op hop
  obtain ⟨op', hop', g, rfl⟩ := h op hop
  obtain ⟨written, stored⟩ := hcode op' hop'
  exact ⟨by rwa [Op.written?_mapTargets], by rwa [Op.stored?_mapTargets]⟩

/-- Placed code is as confined inside a block. -/
theorem embed {code : PlacedCode} (h : Confined register allowed code) :
    Confined register allowed (Ir.embed code) := by
  refine h.of_mapTargets fun op hop => ?_
  obtain ⟨op', hop', rfl⟩ := List.mem_map.mp hop
  exact ⟨op', hop', _, rfl⟩

/-- Placed blocks are as confined as the blocks. -/
theorem place {blocks : List Fragment} (h : ∀ code ∈ blocks, Confined register allowed code) :
    Confined register allowed (Ir.place blocks) := by
  have hall : Confined register allowed blocks.flatten := by
    intro op hop
    obtain ⟨code, hcode, hmem⟩ := List.mem_flatten.mp hop
    exact h code hcode op hmem
  refine hall.of_mapTargets fun op hop => ?_
  obtain ⟨i, hi, rfl⟩ := List.mem_mapIdx.mp hop
  exact ⟨_, List.getElem_mem hi, _, rfl⟩

end Confined

/-! ## Values and arguments -/

/-- **A value writes temporaries**, and stores nothing. -/
theorem lowerValue_confined {v : Value} (h : (lowerValue f v).Yields s (code, r) t) :
    Confined s.tempTop (fun _ => False) code := by
  induction v generalizing s t code r with
  | const v =>
      obtain ⟨halloc, rfl⟩ := lowerValue_const_yields.mp h
      obtain ⟨-, rfl, -⟩ := allocTemp_yields.mp halloc
      exact .one (.of_written rfl (Nat.le_refl _))
  | load a lane =>
      obtain ⟨slot, -, halloc, rfl⟩ := lowerValue_load_yields.mp h
      obtain ⟨-, rfl, -⟩ := allocTemp_yields.mp halloc
      exact .one (.of_written rfl (Nat.le_refl _))
  | param i =>
      obtain ⟨-, rfl, -⟩ := lowerValue_param_yields.mp h
      exact .nil
  | var i =>
      obtain ⟨-, rfl, -⟩ := lowerValue_var_yields.mp h
      exact .nil
  | binary op lhs rhs ihl ihr =>
      obtain ⟨lhsCode, x, u, rhsCode, y, w, hl, hr, halloc, rfl⟩ := lowerValue_binary_yields.mp h
      have hleft := (lowerValue_restored hl).2
      have hright := (lowerValue_restored hr).2
      obtain ⟨-, rfl, -⟩ := allocTemp_yields.mp halloc
      have hrhs := (ihr hr).mono hleft fun _ => id
      exact ((ihl hl).append hrhs).append (.one (.of_written rfl (Nat.le_trans hleft hright)))

/-- An argument writes a register of its own, and temporaries. -/
theorem lowerArg_confined (htemps : s.registerTop ≤ s.tempTop) {callee : Routine} {index : Nat}
    {kind : ParamKind} {arg : Arg} {b : Binding}
    (h : (lowerArg f callee index kind arg).Yields s (code, b) t) :
    Confined s.registerTop (fun _ => False) code ∧ t.registerTop ≤ t.tempTop := by
  obtain ⟨a, slot, -, -, -, rfl, -, rfl⟩ | ⟨v, front, temp, u, register, -, -, hv, hregister, rfl,
    -⟩ := lowerArg_yields.mp h
  · exact ⟨.nil, htemps⟩
  · have hsame := (lowerValue_restored hv).1.sameRegisters
    obtain ⟨-, rfl, rfl⟩ := allocRegister_yields.mp hregister
    have hfront := (lowerValue_confined hv).mono htemps fun _ => id
    exact ⟨hfront.append (.one (.of_written rfl (Nat.le_of_eq hsame.symm))), Nat.le_refl _⟩

/-- The code of arguments writes registers above those in use, and no slot. -/
theorem lowerArgs_confined (htemps : s.registerTop ≤ s.tempTop) {callee : Routine} {index : Nat}
    {args : List (ParamKind × Arg)} {bindings : List Binding}
    (h : (lowerArgs f callee index args).Yields s (code, bindings) t) :
    Confined s.registerTop (fun _ => False) code := by
  induction args generalizing s code bindings index with
  | nil =>
      obtain ⟨rfl, -, -⟩ := lowerArgs_nil_yields.mp h
      exact .nil
  | cons arg rest ih =>
      obtain ⟨front, b, u, back, others, harg, hrest, rfl, -⟩ := lowerArgs_cons_yields.mp h
      obtain ⟨hfront, htemps'⟩ := lowerArg_confined htemps harg
      have hback := (ih htemps' hrest).mono (lowerArg_grows harg).registerTop fun _ => id
      exact hfront.append hback

/-- A slot that a callee is given is that of an array that the call names. -/
theorem lowerArgs_slot {callee : Routine} {index : Nat} {args : List (ParamKind × Arg)}
    {bindings : List Binding} (h : (lowerArgs f callee index args).Yields s (code, bindings) t)
    {i slot : Nat} (hslot : bindings[i]? = some (.slot slot)) :
    ∃ kind a, args[i]? = some (kind, .array a) ∧ f.slotOf a (kind.lanes - 1) = .ok slot := by
  induction args generalizing s code bindings index i with
  | nil =>
      obtain ⟨-, rfl, -⟩ := lowerArgs_nil_yields.mp h
      cases hslot
  | cons arg rest ih =>
      obtain ⟨kind, arg⟩ := arg
      obtain ⟨front, b, u, back, others, harg, hrest, -, rfl⟩ := lowerArgs_cons_yields.mp h
      cases i with
      | succ i => exact ih hrest hslot
      | zero =>
          obtain rfl : b = .slot slot := Option.some.inj hslot
          obtain ⟨a, slot', -, rfl, hslot', -, hb, -⟩ | ⟨_, _, _, _, _, -, -, -, -, -, hb⟩ :=
            lowerArg_yields.mp harg
          · obtain rfl := Binding.slot.inj hb
            exact ⟨kind, a, rfl, hslot'⟩
          · cases hb

/-! ## Statements and blocks -/

/-- The slot is bound to a parameter that is passed by reference. -/
def Routine.Received (r : Routine) (params : List Binding) (slot : Nat) : Prop :=
  ∃ (i : Nat) (kind : ParamKind), r.params[i]? = some kind ∧ kind ≠ .scalar ∧
    params[i]? = some (.slot slot)

/-- The frame's variables and arrays are what may be written. -/
structure Frame.Owns (f : Frame) (register : Nat) (allowed : Nat → Prop) : Prop where
  vars : ∀ r ∈ f.vars, register ≤ r
  temps : ∀ slot ∈ f.temps, allowed slot
  received : ∀ slot, f.routine.Received f.params slot → allowed slot
  onReturn : f.onReturn.Confined register allowed

/-- An array that the frame can address is one that it owns. -/
theorem Frame.Owns.slotOf (owns : f.Owns register allowed) {a : ArrayRef} {lane slot : Nat}
    (h : f.slotOf a lane = .ok slot) : allowed slot := by
  obtain ⟨lanes, harray, hlane⟩ := Frame.slotOf_eq_ok.mp h
  cases a with
  | temp i =>
      obtain ⟨hslot, -⟩ := Frame.array?_temp_eq_ok.mp harray
      exact owns.temps slot (List.mem_of_getElem? hslot)
  | param i =>
      obtain ⟨kind, hkind, hslot, rfl⟩ := Frame.array?_param_eq_ok.mp harray
      refine owns.received slot ⟨i, kind, hkind, ?_, hslot⟩
      -- a scalar has no lanes
      rintro rfl
      exact absurd hlane (Nat.not_lt_zero _)

/-- A variable lives in a register of the routine. -/
theorem Frame.Owns.registerOfVar (owns : f.Owns register allowed) {i r : Nat}
    (h : f.registerOfVar i = .ok r) : register ≤ r :=
  owns.vars r (List.mem_of_getElem? (Frame.registerOfVar_eq_ok.mp h))

/-- The code of an assignment writes what the routine owns. -/
theorem lowerAssign_confined (owns : f.Owns register allowed) (htemps : register ≤ s.tempTop)
    {dst : Place} {v : Value} (h : (lowerAssign f dst v).Yields s code t) :
    Confined register allowed code := by
  cases dst with
  | lane a lane =>
      obtain ⟨front, src, slot, hv, hslot, rfl⟩ := lowerAssign_lane_yields.mp h
      exact (Confined.of_storeless htemps (lowerValue_confined hv)).append
        (.one (.store (owns.slotOf hslot)))
  | var i =>
      obtain ⟨front, src, dst, hv, hdst, rfl⟩ := lowerAssign_var_yields.mp h
      exact (Confined.of_storeless htemps (lowerValue_confined hv)).append
        (.one (.of_written rfl (owns.registerOfVar hdst)))

/-- Callees are expanded to code that writes free storage and received arrays only. -/
def Expander.Confines (expand : Expander) : Prop :=
  ∀ ⦃body⦄, expand = some body → ∀ ⦃callee bindings onReturn s placed t⦄,
    onReturn.written? = none → onReturn.stored? = none →
    (body callee bindings onReturn).Yields s placed t →
    Confined s.registerTop (fun slot => s.slotTop ≤ slot ∨ callee.Received bindings slot) placed

/-- The slot is that of an array that the call passes. -/
def Module.Passes (m : Module) (f : Frame) (id : Nat) (args : List Arg) (slot : Nat) : Prop :=
  ∃ (callee : Routine) (i : Nat) (kind : ParamKind) (a : ArrayRef), m.routine? id = some callee ∧
    callee.params[i]? = some kind ∧ kind ≠ .scalar ∧ args[i]? = some (.array a) ∧
      f.slotOf a (kind.lanes - 1) = .ok slot

variable {m : Module} {expand : Expander}

/-- **A call leaves the frame of its caller alone**, but for the arrays that it passes. -/
theorem lowerCall_confined (confines : expand.Confines) (htemps : s.registerTop ≤ s.tempTop)
    {id : Nat} {args : List Arg} (h : (lowerCall m expand f id args).Yields s code t) :
    Confined s.registerTop (fun slot => s.slotTop ≤ slot ∨ m.Passes f id args slot) code := by
  obtain ⟨callee, body, argCode, bindings, u, placed, w, hcallee, -, hbody, -, hargs, hrun, rfl,
    -⟩ := lowerCall_yields.mp h
  have grows := lowerArgs_grows hargs
  have hargCode := lowerArgs_confined htemps hargs
  have hplaced := confines hbody rfl rfl hrun
  refine (Confined.of_storeless (Nat.le_refl _) hargCode).append
    (hplaced.embed.mono grows.registerTop fun slot hslot => ?_)
  obtain hfree | ⟨i, kind, hkind, hscalar, hbinding⟩ := hslot
  · exact .inl (grows.slotTop ▸ hfree)
  · obtain ⟨kind', a, hpair, hslot⟩ := lowerArgs_slot hargs hbinding
    obtain ⟨hkind', harg⟩ := List.getElem?_zip_eq_some.mp hpair
    obtain rfl := Option.some.inj (hkind.symm.trans hkind')
    exact .inr ⟨callee, i, kind, a, hcallee, hkind, hscalar, harg, hslot⟩

/-- The code of a statement writes what the routine owns, if callees are confined. -/
theorem lowerStmt_confined (confines : expand.Confines) (owns : f.Owns register allowed)
    (hregister : register ≤ s.registerTop) (htemps : s.registerTop ≤ s.tempTop)
    (hfree : ∀ slot, s.slotTop ≤ slot → allowed slot) {stmt : Stmt}
    (h : (lowerStmt m expand f stmt).Yields s code t) : Confined register allowed code := by
  cases stmt with
  | assign dst value => exact lowerAssign_confined owns (Nat.le_trans hregister htemps) h
  | call id args =>
      refine (lowerCall_confined confines htemps h).mono hregister fun slot hslot => ?_
      obtain hslot | ⟨_, _, _, _, -, -, -, -, hslot⟩ := hslot
      · exact hfree slot hslot
      · exact owns.slotOf hslot

/-- The code of statements writes what the routine owns, if callees are confined. -/
theorem lowerStmts_confined (restores : expand.Restores) (confines : expand.Confines)
    (owns : f.Owns register allowed) (hregister : register ≤ s.registerTop)
    (hfree : ∀ slot, s.slotTop ≤ slot → allowed slot) {stmts : List Stmt}
    (h : (lowerStmts m expand f stmts).Yields s code t) : Confined register allowed code := by
  induction stmts generalizing s code with
  | nil =>
      obtain ⟨rfl, -⟩ := lowerStmts_nil_yields.mp h
      exact .nil
  | cons stmt rest ih =>
      obtain ⟨front, u, back, hstmt, hrest, rfl⟩ := lowerStmts_cons_yields.mp h
      have hfront := lowerStmt_confined confines owns (s := s.dropTemps) hregister (Nat.le_refl _)
        hfree hstmt
      have restored := (Storage.dropTemps_restored s).trans (lowerStmt_restored restores hstmt)
      have hback := ih (s := u) (restored.sameRegisters.symm ▸ hregister)
        (restored.slotTop.symm ▸ hfree) hrest
      exact hfront.append hback

/-- The code of a terminator writes temporaries only. -/
theorem lowerTerminator_confined (owns : f.Owns register allowed) (htemps : register ≤ s.tempTop)
    {terminator : Terminator} (h : (lowerTerminator f terminator).Yields s code t) :
    Confined register allowed code := by
  cases terminator with
  | ret =>
      obtain ⟨rfl, -⟩ := lowerTerminator_ret_yields.mp h
      exact .one owns.onReturn
  | jump b =>
      obtain ⟨target, -, rfl, -⟩ := lowerTerminator_jump_yields.mp h
      exact .one (.of_none rfl rfl)
  | branch op lhs rhs onTrue onFalse =>
      obtain ⟨lhsCode, x, u, rhsCode, y, _, _, hl, hr, -, -, rfl⟩ :=
        lowerTerminator_branch_yields.mp h
      have hleft := Nat.le_trans htemps (lowerValue_restored hl).2
      have hlhs : Confined register allowed lhsCode := .of_storeless htemps (lowerValue_confined hl)
      have hrhs : Confined register allowed rhsCode := .of_storeless hleft (lowerValue_confined hr)
      exact (hlhs.append hrhs).append (.one (.of_none rfl rfl))

/-- The code of a block writes what the routine owns, if callees are confined. -/
theorem lowerBlock_confined (restores : expand.Restores) (confines : expand.Confines)
    (owns : f.Owns register allowed) (hregister : register ≤ s.registerTop)
    (hfree : ∀ slot, s.slotTop ≤ slot → allowed slot) {index : Nat} {b : Block}
    (h : (lowerBlock m expand f index b).Yields s code t) : Confined register allowed code := by
  obtain ⟨front, u, terminator, back, hstmts, -, hend, rfl⟩ := lowerBlock_yields.mp h
  have hfront := lowerStmts_confined restores confines owns hregister hfree hstmts
  have hsame := (lowerStmts_restored restores hstmts).sameRegisters
  have htemps : register ≤ u.dropTemps.tempTop := by
    change register ≤ u.registerTop
    rwa [hsame]
  have hback := lowerTerminator_confined owns htemps hend
  exact hfront.append hback

/-- The code of blocks writes what the routine owns, if callees are confined. -/
theorem lowerBlocks_confined (restores : expand.Restores) (confines : expand.Confines)
    (owns : f.Owns register allowed) (hregister : register ≤ s.registerTop)
    (hfree : ∀ slot, s.slotTop ≤ slot → allowed slot) {index : Nat} {blocks : List Block}
    {fragments : List Fragment} (h : (lowerBlocks m expand f index blocks).Yields s fragments t) :
    ∀ code ∈ fragments, Confined register allowed code := by
  induction blocks generalizing s fragments index with
  | nil =>
      obtain ⟨rfl, -⟩ := lowerBlocks_nil_yields.mp h
      exact fun _ hcode => absurd hcode List.not_mem_nil
  | cons b rest ih =>
      obtain ⟨front, u, back, hb, hrest, rfl⟩ := lowerBlocks_cons_yields.mp h
      have restored := lowerBlock_restored restores hb
      have hback := ih (s := u) (restored.sameRegisters.symm ▸ hregister)
        (restored.slotTop.symm ▸ hfree) hrest
      intro code hcode
      obtain rfl | hcode := List.mem_cons.mp hcode
      · exact lowerBlock_confined restores confines owns hregister hfree hb
      · exact hback code hcode

/-! ## Routines -/

/-- The frame of a routine owns what lies above the storage it is expanded on, and what it
received. -/
theorem Frame.owns_above {routine : Routine} {params : List Binding} {onReturn : Op Target}
    (hwritten : onReturn.written? = none) (hstored : onReturn.stored? = none) :
    (Frame.above routine params onReturn s).Owns s.registerTop
      (fun slot => s.slotTop ≤ slot ∨ routine.Received params slot) := by
  refine ⟨fun r hr => ?_, fun slot hslot => .inl ?_, fun slot hslot => .inr hslot,
    .of_none hwritten hstored⟩
  · obtain ⟨i, -, rfl⟩ := List.mem_range'.mp hr
    omega
  · obtain ⟨i, -, rfl⟩ := List.mem_range'.mp hslot
    omega

/-- The code of a routine writes registers above those in use, and slots above them or received. -/
theorem lowerRoutine_confined (restores : expand.Restores) (confines : expand.Confines)
    {routine : Routine} {params : List Binding} {onReturn : Op Target} {placed : PlacedCode}
    (hwritten : onReturn.written? = none) (hstored : onReturn.stored? = none)
    (h : (lowerRoutine m expand routine params onReturn).Yields s placed t) :
    Confined s.registerTop (fun slot => s.slotTop ≤ slot ∨ routine.Received params slot)
      placed := by
  obtain ⟨-, -, blocks, u, hblocks, rfl, -⟩ := lowerRoutine_yields.mp h
  refine .place (lowerBlocks_confined restores confines (Frame.owns_above hwritten hstored) ?_ ?_
    hblocks)
  · rw [Storage.registerTop_enter]
    exact Nat.le_add_right _ _
  · intro slot hslot
    rw [Storage.slotTop_enter] at hslot
    exact .inl (by omega)

/-- **An expanded routine writes free registers only, and stores to free slots and the arrays
that it received only.** -/
theorem expandRoutine_confined {depth : Nat} {routine : Routine} {params : List Binding}
    {onReturn : Op Target} {placed : PlacedCode} (hwritten : onReturn.written? = none)
    (hstored : onReturn.stored? = none)
    (h : (expandRoutine m depth routine params onReturn).Yields s placed t) :
    Confined s.registerTop (fun slot => s.slotTop ≤ slot ∨ routine.Received params slot)
      placed := by
  induction depth generalizing routine params onReturn s placed t with
  | zero =>
      refine lowerRoutine_confined ?_ ?_ hwritten hstored h
      · intro body hbody
        cases hbody
      · intro body hbody
        cases hbody
  | succ depth ih =>
      refine lowerRoutine_confined (expandRoutine_restores m depth) ?_ hwritten hstored h
      intro body hbody callee bindings onReturn s placed t hwritten hstored hrun
      obtain rfl := Option.some.inj hbody
      exact ih hwritten hstored hrun

/-- **Every expanded routine is confined**, however deep calls nest. -/
theorem expandRoutine_confines (m : Module) (depth : Nat) :
    Expander.Confines (some (expandRoutine m depth)) := by
  rintro body ⟨⟩ callee bindings onReturn s placed t hwritten hstored h
  exact expandRoutine_confined hwritten hstored h

end PixelPipeline.Ir
