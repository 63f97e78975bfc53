import PixelPipeline.Proofs.Lowering.Yields

/-!
# The storage discipline

Storage follows the call structure.  Emission never lowers the slots in use nor
the routines under expansion, registers that it takes for arguments lie above
those in use, and once a statement, a block or a routine has been emitted all
three are what they were.  Only the peaks remember, and they never exceed the
machine.

* `Storage.Grows` — what every successful emission does to the storage;
* `Storage.Restored` — the registers in use are the same as well;
* `expandRoutine_restored` — an expanded routine leaves nothing behind.
-/

namespace PixelPipeline.Ir

open Machine

namespace Storage

/-- What emission may do to a storage. -/
structure Grows (s t : Storage) : Prop where
  slotTop : t.slotTop = s.slotTop
  path : t.path = s.path
  registerTop : s.registerTop ≤ t.registerTop
  registerPeak : s.registerPeak ≤ t.registerPeak
  slotPeak : s.slotPeak ≤ t.slotPeak
  registerBound : t.registerPeak ≤ max s.registerPeak maxRegisters
  slotBound : t.slotPeak ≤ max s.slotPeak maxSlots

/-- What the emission of a whole statement does to a storage. -/
structure Restored (s t : Storage) : Prop extends Grows s t where
  sameRegisters : t.registerTop = s.registerTop

variable {s t u : Storage}

theorem Grows.refl (s : Storage) : s.Grows s where
  slotTop := rfl
  path := rfl
  registerTop := Nat.le_refl _
  registerPeak := Nat.le_refl _
  slotPeak := Nat.le_refl _
  registerBound := Nat.le_max_left _ _
  slotBound := Nat.le_max_left _ _

theorem Grows.trans (h : s.Grows t) (k : t.Grows u) : s.Grows u where
  slotTop := k.slotTop.trans h.slotTop
  path := k.path.trans h.path
  registerTop := Nat.le_trans h.registerTop k.registerTop
  registerPeak := Nat.le_trans h.registerPeak k.registerPeak
  slotPeak := Nat.le_trans h.slotPeak k.slotPeak
  registerBound := by
    have := h.registerBound
    have := k.registerBound
    omega
  slotBound := by
    have := h.slotBound
    have := k.slotBound
    omega

theorem Restored.refl (s : Storage) : s.Restored s := ⟨.refl s, rfl⟩

theorem Restored.trans (h : s.Restored t) (k : t.Restored u) : s.Restored u :=
  ⟨h.toGrows.trans k.toGrows, k.sameRegisters.trans h.sameRegisters⟩

/-- Dropping the temporaries leaves nothing behind. -/
theorem dropTemps_restored (s : Storage) : s.Restored s.dropTemps :=
  ⟨⟨rfl, rfl, Nat.le_refl _, Nat.le_refl _, Nat.le_refl _, Nat.le_max_left _ _,
    Nat.le_max_left _ _⟩, rfl⟩

end Storage

open Lower Storage

variable {s t : Storage} {f : Frame} {code : Fragment} {r : Nat}

/-! ## Values and arguments -/

/-- A temporary register leaves nothing behind. -/
theorem allocTemp_restored (h : allocTemp.Yields s r t) : s.Restored t := by
  obtain ⟨hlt, -, rfl⟩ := allocTemp_yields.mp h
  constructor
  · constructor <;> simp only [Storage.takeTemp] <;> omega
  · rfl

/-- A register that is allocated is handed out. -/
theorem allocRegister_grows (h : allocRegister.Yields s r t) : s.Grows t := by
  obtain ⟨hlt, -, rfl⟩ := allocRegister_yields.mp h
  constructor <;> simp only [Storage.takeRegister] <;> omega

/-- Evaluating a value takes temporaries only. -/
theorem lowerValue_restored {v : Value} (h : (lowerValue f v).Yields s (code, r) t) :
    s.Restored t ∧ s.tempTop ≤ t.tempTop := by
  induction v generalizing s t code r with
  | const v =>
      obtain ⟨h, -⟩ := lowerValue_const_yields.mp h
      refine ⟨allocTemp_restored h, ?_⟩
      obtain ⟨-, -, rfl⟩ := allocTemp_yields.mp h
      exact Nat.le_succ _
  | load a lane =>
      obtain ⟨_, -, h, -⟩ := lowerValue_load_yields.mp h
      refine ⟨allocTemp_restored h, ?_⟩
      obtain ⟨-, -, rfl⟩ := allocTemp_yields.mp h
      exact Nat.le_succ _
  | param i =>
      obtain ⟨-, -, rfl⟩ := lowerValue_param_yields.mp h
      exact ⟨.refl _, Nat.le_refl _⟩
  | var i =>
      obtain ⟨-, -, rfl⟩ := lowerValue_var_yields.mp h
      exact ⟨.refl _, Nat.le_refl _⟩
  | binary op lhs rhs ihl ihr =>
      obtain ⟨_, _, u, _, _, w, hl, hr, h, -⟩ := lowerValue_binary_yields.mp h
      obtain ⟨hl, hlTemp⟩ := ihl hl
      obtain ⟨hr, hrTemp⟩ := ihr hr
      refine ⟨(hl.trans hr).trans (allocTemp_restored h), ?_⟩
      obtain ⟨-, -, rfl⟩ := allocTemp_yields.mp h
      exact Nat.le_trans (Nat.le_trans hlTemp hrTemp) (Nat.le_succ _)

/-- An argument hands out what it needs. -/
theorem lowerArg_grows {callee : Routine} {index : Nat} {kind : ParamKind} {arg : Arg}
    {binding : Binding} (h : (lowerArg f callee index kind arg).Yields s (code, binding) t) :
    s.Grows t := by
  obtain ⟨_, _, -, -, -, -, -, rfl⟩ | ⟨_, _, _, _, _, -, -, hv, hr, -, -⟩ := lowerArg_yields.mp h
  · exact .refl _
  · exact (lowerValue_restored hv).1.toGrows.trans (allocRegister_grows hr)

/-- Arguments hand out what they need. -/
theorem lowerArgs_grows {callee : Routine} {index : Nat} {args : List (ParamKind × Arg)}
    {bindings : List Binding}
    (h : (lowerArgs f callee index args).Yields s (code, bindings) t) : s.Grows t := by
  induction args generalizing s code bindings index with
  | nil =>
      obtain ⟨-, -, rfl⟩ := lowerArgs_nil_yields.mp h
      exact .refl _
  | cons arg rest ih =>
      obtain ⟨_, _, _, _, _, harg, hrest, -, -⟩ := lowerArgs_cons_yields.mp h
      exact (lowerArg_grows harg).trans (ih hrest)

/-! ## Statements and routines -/

/-- Callees are expanded without leaving anything behind. -/
def Expander.Restores (expand : Expander) : Prop :=
  ∀ ⦃body⦄, expand = some body → ∀ ⦃callee bindings onReturn s placed t⦄,
    (body callee bindings onReturn).Yields s placed t → s.Restored t

variable {m : Module} {expand : Expander}

/-- The registers that a call takes for its arguments are free again after it. -/
theorem lowerCall_restored (hexpand : expand.Restores) {id : Nat} {args : List Arg}
    (h : (lowerCall m expand f id args).Yields s code t) : s.Restored t := by
  obtain ⟨callee, body, _, _, u, _, w, -, -, hbody, -, hargs, hrun, -, rfl⟩ :=
    lowerCall_yields.mp h
  have grown := lowerArgs_grows hargs
  have restored := hexpand hbody hrun
  refine ⟨⟨restored.slotTop.trans grown.slotTop, rfl, Nat.le_refl _, ?_, ?_, ?_, ?_⟩, rfl⟩
  · exact Nat.le_trans grown.registerPeak restored.registerPeak
  · exact Nat.le_trans grown.slotPeak restored.slotPeak
  · have := grown.registerBound
    have := restored.registerBound
    simp only at *
    omega
  · have := grown.slotBound
    have := restored.slotBound
    simp only at *
    omega

/-- A statement leaves nothing behind, if callees do not. -/
theorem lowerStmt_restored (hexpand : expand.Restores) {stmt : Stmt}
    (h : (lowerStmt m expand f stmt).Yields s code t) : s.Restored t := by
  cases stmt with
  | assign dst value =>
      cases dst with
      | lane a lane =>
          obtain ⟨_, _, _, hv, -, -⟩ := lowerAssign_lane_yields.mp h
          exact (lowerValue_restored hv).1
      | var i =>
          obtain ⟨_, _, _, hv, -, -⟩ := lowerAssign_var_yields.mp h
          exact (lowerValue_restored hv).1
  | call id args => exact lowerCall_restored hexpand h

/-- Statements leave nothing behind, if callees do not. -/
theorem lowerStmts_restored (hexpand : expand.Restores) {stmts : List Stmt}
    (h : (lowerStmts m expand f stmts).Yields s code t) : s.Restored t := by
  induction stmts generalizing s code with
  | nil =>
      obtain ⟨-, rfl⟩ := lowerStmts_nil_yields.mp h
      exact .refl _
  | cons stmt rest ih =>
      obtain ⟨_, _, _, hstmt, hrest, -⟩ := lowerStmts_cons_yields.mp h
      exact ((dropTemps_restored s).trans (lowerStmt_restored hexpand hstmt)).trans (ih hrest)

/-- A terminator leaves nothing behind. -/
theorem lowerTerminator_restored {terminator : Terminator}
    (h : (lowerTerminator f terminator).Yields s code t) : s.Restored t := by
  cases terminator with
  | ret =>
      obtain ⟨-, rfl⟩ := lowerTerminator_ret_yields.mp h
      exact .refl _
  | jump b =>
      obtain ⟨_, -, -, rfl⟩ := lowerTerminator_jump_yields.mp h
      exact .refl _
  | branch op lhs rhs thenBlock elseBlock =>
      obtain ⟨_, _, _, _, _, _, _, hl, hr, -, -, -⟩ := lowerTerminator_branch_yields.mp h
      exact (lowerValue_restored hl).1.trans (lowerValue_restored hr).1

/-- A block leaves nothing behind, if callees do not. -/
theorem lowerBlock_restored (hexpand : expand.Restores) {index : Nat} {b : Block}
    (h : (lowerBlock m expand f index b).Yields s code t) : s.Restored t := by
  obtain ⟨_, u, _, _, hstmts, -, hend, -⟩ := lowerBlock_yields.mp h
  exact ((lowerStmts_restored hexpand hstmts).trans (dropTemps_restored u)).trans
    (lowerTerminator_restored hend)

/-- Blocks leave nothing behind, if callees do not. -/
theorem lowerBlocks_restored (hexpand : expand.Restores) {index : Nat} {blocks : List Block}
    {fragments : List Fragment}
    (h : (lowerBlocks m expand f index blocks).Yields s fragments t) : s.Restored t := by
  induction blocks generalizing s fragments index with
  | nil =>
      obtain ⟨-, rfl⟩ := lowerBlocks_nil_yields.mp h
      exact .refl _
  | cons b rest ih =>
      obtain ⟨_, _, _, hb, hrest, -⟩ := lowerBlocks_cons_yields.mp h
      exact (lowerBlock_restored hexpand hb).trans (ih hrest)

/-- Each block of a routine is emitted on a storage that differs from the first
one in its peaks only. -/
theorem lowerBlocks_get (hexpand : expand.Restores) {first : Nat} {blocks : List Block}
    {fragments : List Fragment}
    (h : (lowerBlocks m expand f first blocks).Yields s fragments t) {index : Nat} {b : Block}
    (hb : blocks[index]? = some b) :
    ∃ fragment u w, fragments[index]? = some fragment ∧ s.Restored u ∧
      (lowerBlock m expand f (first + index) b).Yields u fragment w := by
  induction blocks generalizing s fragments first index with
  | nil => simp at hb
  | cons head rest ih =>
      obtain ⟨front, u, back, hhead, hrest, rfl⟩ := lowerBlocks_cons_yields.mp h
      cases index with
      | zero =>
          obtain rfl : head = b := by simpa using hb
          exact ⟨front, s, u, rfl, .refl s, hhead⟩
      | succ index =>
          obtain ⟨fragment, v, w, hget, hv, hlower⟩ := ih hrest (by simpa using hb)
          refine ⟨fragment, v, w, by simpa using hget, (lowerBlock_restored hexpand hhead).trans hv,
            ?_⟩
          rwa [Nat.add_assoc, Nat.add_comm 1] at hlower

/-! ## The storage of a routine -/

/-- Registers that are taken raise the top. -/
@[simp] theorem Storage.registerTop_takeRegisters (n : Nat) :
    (s.takeRegisters n).registerTop = s.registerTop + n := by
  induction n generalizing s with
  | zero => rfl
  | succ n ih =>
      simp only [takeRegisters, ih, takeRegister]
      omega

@[simp] theorem Storage.slotTop_takeRegisters (n : Nat) :
    (s.takeRegisters n).slotTop = s.slotTop := by
  induction n generalizing s with
  | zero => rfl
  | succ n ih => simp [takeRegisters, ih, takeRegister]

@[simp] theorem Storage.path_takeRegisters (n : Nat) : (s.takeRegisters n).path = s.path := by
  induction n generalizing s with
  | zero => rfl
  | succ n ih => simp [takeRegisters, ih, takeRegister]

@[simp] theorem Storage.path_takeSlots (n : Nat) : (s.takeSlots n).path = s.path := by
  induction n generalizing s with
  | zero => rfl
  | succ n ih => simp [takeSlots, ih, takeSlot]

/-- Slots that exist raise the peak of slots no further than the machine has. -/
theorem Storage.takeSlots_peaks {n : Nat} (h : n = 0 ∨ s.slotTop + n ≤ maxSlots) :
    (s.takeSlots n).registerPeak = s.registerPeak ∧ s.slotPeak ≤ (s.takeSlots n).slotPeak ∧
      (s.takeSlots n).slotPeak ≤ max s.slotPeak maxSlots := by
  induction n generalizing s with
  | zero => exact ⟨rfl, Nat.le_refl _, Nat.le_max_left _ _⟩
  | succ n ih =>
      have := ih (s := s.takeSlot) (by simp only [takeSlot]; omega)
      simp only [takeSlots, takeSlot] at *
      omega

/-- Registers that exist raise their peak no further than the machine has. -/
theorem Storage.takeRegisters_peaks {n : Nat} (h : n = 0 ∨ s.registerTop + n ≤ maxRegisters) :
    (s.takeRegisters n).slotPeak = s.slotPeak ∧
      s.registerPeak ≤ (s.takeRegisters n).registerPeak ∧
      (s.takeRegisters n).registerPeak ≤ max s.registerPeak maxRegisters := by
  induction n generalizing s with
  | zero => exact ⟨rfl, Nat.le_refl _, Nat.le_max_left _ _⟩
  | succ n ih =>
      have := ih (s := s.takeRegister) (by simp only [takeRegister]; omega)
      simp only [takeRegisters, takeRegister] at *
      omega

/-- Entering a routine takes a register for each variable. -/
@[simp] theorem Storage.registerTop_enter (routine : Routine) :
    (s.enter routine).registerTop = s.registerTop + routine.vars := by
  simp [enter]

/-- Entering a routine takes a slot for each temporary array. -/
@[simp] theorem Storage.slotTop_enter (routine : Routine) :
    (s.enter routine).slotTop = s.slotTop + routine.temps := by
  simp [enter]

/-- Entering a routine leaves the path to it. -/
@[simp] theorem Storage.path_enter (routine : Routine) : (s.enter routine).path = s.path := by
  simp [enter]

/-- A routine whose callees leave nothing behind leaves nothing behind. -/
theorem lowerRoutine_restored (hexpand : expand.Restores) {routine : Routine}
    {params : List Binding} {onReturn : Op Target} {placed : PlacedCode}
    (h : (lowerRoutine m expand routine params onReturn).Yields s placed t) : s.Restored t := by
  obtain ⟨hslots, hregisters, _, u, hblocks, -, rfl⟩ := lowerRoutine_yields.mp h
  have restored := lowerBlocks_restored hexpand hblocks
  have slots := takeSlots_peaks hslots
  have registers := takeRegisters_peaks (s := s.takeSlots routine.temps) (n := routine.vars)
    (by rwa [registerTop_takeSlots])
  have registerPeak := restored.registerPeak
  have slotPeak := restored.slotPeak
  have registerBound := restored.registerBound
  have slotBound := restored.slotBound
  simp only [enter] at registerPeak slotPeak registerBound slotBound
  refine ⟨⟨rfl, ?_, Nat.le_refl _, ?_, ?_, ?_, ?_⟩, rfl⟩
  · exact restored.path.trans (path_enter routine)
  all_goals
    simp only [leave]
    omega

/-- **An expanded routine leaves nothing behind**: the registers and slots in
use and the routines under expansion are those from before. -/
theorem expandRoutine_restored {depth : Nat} {routine : Routine} {params : List Binding}
    {onReturn : Op Target} {placed : PlacedCode}
    (h : (expandRoutine m depth routine params onReturn).Yields s placed t) : s.Restored t := by
  induction depth generalizing routine params onReturn s placed t with
  | zero =>
      refine lowerRoutine_restored ?_ h
      intro body hbody
      cases hbody
  | succ depth ih =>
      refine lowerRoutine_restored ?_ h
      intro body hbody callee bindings onReturn s placed t hcallee
      obtain rfl := Option.some.inj hbody
      exact ih hcallee

/-- **An expanded routine leaves nothing behind**, however deep calls nest. -/
theorem expandRoutine_restores (m : Module) (depth : Nat) :
    Expander.Restores (some (expandRoutine m depth)) := by
  rintro body ⟨⟩ callee bindings onReturn s placed t h
  exact expandRoutine_restored h

end PixelPipeline.Ir
