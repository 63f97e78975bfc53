import PixelPipeline.Proofs.Lowering.Tracking
import PixelPipeline.Proofs.Machine.Operands

/-!
# What emitted code names

Every register and slot that an operation names was handed out, so it lies below
the peaks that the emission has left, and peaks never fall.  Lanes are another
matter: they are checked against the parameter of the routine that names them,
while the slot is the caller's.  A frame is sound if a slot has the lanes that
the kind of its parameter promises; a call hands an array on only if the last
promised lane is there, so frames of callees are sound as well.

`lanes` says how many lanes may be named in each slot.  The slots from `base` on
are temporary arrays, which have all four.

* `Op.Within` — an operation names what was handed out;
* `Frame.Sound` — so do the names of a routine;
* `expandRoutine_within` — so does all code of an expanded routine.
-/

namespace PixelPipeline.Ir

open Machine Lower Storage

/-- An operation names registers and slots that were handed out, and lanes that
may be named there. -/
structure Within {τ : Type} (lanes : Nat → Nat) (s : Storage) (op : Op τ) : Prop where
  registers : ∀ r ∈ op.registers, r < s.registerPeak
  cells : ∀ cell ∈ op.cells, cell.1 < s.slotPeak ∧ cell.2 < lanes cell.1

/-- All operations of a piece of code do. -/
def AllWithin {τ : Type} (lanes : Nat → Nat) (s : Storage) (code : List (Op τ)) : Prop :=
  ∀ op ∈ code, Within lanes s op

/-- A parameter was handed out and has the lanes that its kind promises. -/
def Promised (lanes : Nat → Nat) (s : Storage) (b : Binding) (kind : ParamKind) : Prop :=
  match b with
  | .slot slot => slot < s.slotPeak ∧ kind.lanes ≤ lanes slot
  | .register r => r < s.registerPeak

/-- Every name of a routine stands for something that was handed out. -/
structure Frame.Sound (lanes : Nat → Nat) (s : Storage) (f : Frame) : Prop where
  params : List.Forall₂ (Promised lanes s) f.params f.routine.params
  temps : ∀ slot ∈ f.temps, slot < s.slotPeak ∧ 4 ≤ lanes slot
  vars : ∀ r ∈ f.vars, r < s.registerPeak
  onReturn : Within lanes s f.onReturn

section

variable {σ τ : Type} {lanes : Nat → Nat} {s t : Storage}

/-! ## Peaks never fall -/

theorem Within.mono {op : Op τ} (h : Within lanes s op)
    (hregisters : s.registerPeak ≤ t.registerPeak)
    (hslots : s.slotPeak ≤ t.slotPeak) : Within lanes t op :=
  ⟨fun r hr => Nat.lt_of_lt_of_le (h.registers r hr) hregisters,
    fun cell hcell => ⟨Nat.lt_of_lt_of_le (h.cells cell hcell).1 hslots, (h.cells cell hcell).2⟩⟩

theorem Promised.mono {b : Binding} {kind : ParamKind} (h : Promised lanes s b kind)
    (hregisters : s.registerPeak ≤ t.registerPeak) (hslots : s.slotPeak ≤ t.slotPeak) :
    Promised lanes t b kind := by
  cases b with
  | slot slot => exact ⟨Nat.lt_of_lt_of_le h.1 hslots, h.2⟩
  | register r => exact Nat.lt_of_lt_of_le h hregisters

theorem Frame.Sound.mono {f : Frame} (h : f.Sound lanes s) (grows : s.Grows t) :
    f.Sound lanes t where
  params := h.params.imp fun _ _ sound => sound.mono grows.registerPeak grows.slotPeak
  temps := fun slot hslot =>
    ⟨Nat.lt_of_lt_of_le (h.temps slot hslot).1 grows.slotPeak, (h.temps slot hslot).2⟩
  vars := fun r hr => Nat.lt_of_lt_of_le (h.vars r hr) grows.registerPeak
  onReturn := h.onReturn.mono grows.registerPeak grows.slotPeak

namespace AllWithin

theorem nil : AllWithin lanes s ([] : List (Op τ)) := fun _ hop => absurd hop List.not_mem_nil

theorem one {op : Op τ} (h : Within lanes s op) : AllWithin lanes s [op] := by
  intro op' hop
  rwa [List.mem_singleton.mp hop]

/-- Code stays within if both halves do. -/
theorem append {front back : List (Op τ)} (hfront : AllWithin lanes s front)
    (hback : AllWithin lanes s back) : AllWithin lanes s (front ++ back) := by
  intro op hop
  obtain hop | hop := List.mem_append.mp hop
  · exact hfront op hop
  · exact hback op hop

theorem mono {code : List (Op τ)} (h : AllWithin lanes s code)
    (hregisters : s.registerPeak ≤ t.registerPeak) (hslots : s.slotPeak ≤ t.slotPeak) :
    AllWithin lanes t code :=
  fun op hop => (h op hop).mono hregisters hslots

/-- Code stays within a storage that grows. -/
theorem grows {code : List (Op τ)} (h : AllWithin lanes s code) (grows : s.Grows t) :
    AllWithin lanes t code :=
  h.mono grows.registerPeak grows.slotPeak

end AllWithin

/-- Replacing targets replaces nothing else. -/
theorem Within.mapTargets {op : Op σ} (h : Within lanes s op) (g : σ → τ) :
    Within lanes s (op.mapTargets g) :=
  ⟨by rw [Op.registers_mapTargets]; exact h.registers,
    by rw [Op.cells_mapTargets]; exact h.cells⟩

/-- Placed code stays within inside a block. -/
theorem AllWithin.embed {code : PlacedCode} (h : AllWithin lanes s code) :
    AllWithin lanes s (Ir.embed code) := by
  intro op hop
  obtain ⟨callee, hcallee, rfl⟩ := List.mem_map.mp hop
  exact (h callee hcallee).mapTargets _

/-- Placed blocks stay within if the blocks do. -/
theorem AllWithin.place {blocks : List Fragment} (h : ∀ code ∈ blocks, AllWithin lanes s code) :
    AllWithin lanes s (Ir.place blocks) := by
  intro op hop
  obtain ⟨i, hi, rfl⟩ := List.mem_mapIdx.mp hop
  obtain ⟨code, hcode, hmem⟩ := List.mem_flatten.mp (List.getElem_mem hi)
  exact (h code hcode _ hmem).mapTargets _

/-- Of an operation that names no cell, only the registers matter. -/
theorem Within.of_registers {op : Op τ} (hcells : op.cells = [])
    (hregisters : ∀ r ∈ op.registers, r < s.registerPeak) : Within lanes s op :=
  ⟨hregisters, by simp [hcells]⟩

/-- A jump names neither registers nor cells. -/
theorem Within.jump (target : τ) : Within lanes s (.jump target) :=
  .of_registers rfl (by simp [Op.registers])

/-- A return names nothing. -/
theorem Within.ret : Within lanes s (.ret : Op τ) := .of_registers rfl (by simp [Op.registers])

/-! ## Names -/

variable {f : Frame} {code : Fragment} {r : Nat}

namespace Frame.Sound

/-- A lane of an array is there. -/
theorem slotOf (sound : f.Sound lanes s) {a : ArrayRef} {lane slot : Nat}
    (h : f.slotOf a lane = .ok slot) : slot < s.slotPeak ∧ lane < lanes slot := by
  obtain ⟨count, harray, hlane⟩ := Frame.slotOf_eq_ok.mp h
  cases a with
  | param i =>
      obtain ⟨kind, hkind, hbinding, rfl⟩ := Frame.array?_param_eq_ok.mp harray
      obtain ⟨kind', hkind', hpeak, hlanes⟩ := forall₂_getElem? sound.params hbinding
      obtain rfl := Option.some.inj (hkind.symm.trans hkind')
      exact ⟨hpeak, Nat.lt_of_lt_of_le hlane hlanes⟩
  | temp i =>
      obtain ⟨hslot, rfl⟩ := Frame.array?_temp_eq_ok.mp harray
      obtain ⟨hpeak, hlanes⟩ := sound.temps slot (List.mem_of_getElem? hslot)
      exact ⟨hpeak, Nat.lt_of_lt_of_le hlane hlanes⟩

/-- The register of a variable was handed out. -/
theorem registerOfVar (sound : f.Sound lanes s) {i : Nat} (h : f.registerOfVar i = .ok r) :
    r < s.registerPeak :=
  sound.vars r (List.mem_of_getElem? (Frame.registerOfVar_eq_ok.mp h))

/-- The register of a parameter was handed out. -/
theorem registerOfParam (sound : f.Sound lanes s) {i : Nat} (h : f.registerOfParam i = .ok r) :
    r < s.registerPeak := by
  have hparam := Frame.registerOfParam_eq_ok.mp h
  obtain ⟨_, -, hpromised⟩ := forall₂_getElem? sound.params hparam
  exact hpromised

end Frame.Sound

/-! ## Values and arguments -/

/-- A temporary register was handed out. -/
theorem allocTemp_lt (h : allocTemp.Yields s r t) : r < t.registerPeak := by
  obtain ⟨-, rfl, rfl⟩ := allocTemp_yields.mp h
  exact Nat.lt_of_lt_of_le (Nat.lt_succ_self _) (Nat.le_max_right _ _)

/-- A register that was allocated was handed out. -/
theorem allocRegister_lt (h : allocRegister.Yields s r t) : r < t.registerPeak := by
  obtain ⟨-, rfl, rfl⟩ := allocRegister_yields.mp h
  exact Nat.lt_of_lt_of_le (Nat.lt_succ_self _) (Nat.le_max_right _ _)

/-- The code of a value stays inside, and so does the register that holds it. -/
theorem lowerValue_within (sound : f.Sound lanes s) {v : Value}
    (h : (lowerValue f v).Yields s (code, r) t) :
    AllWithin lanes t code ∧ r < t.registerPeak := by
  induction v generalizing s t code r with
  | const v =>
      obtain ⟨halloc, rfl⟩ := lowerValue_const_yields.mp h
      have hr := allocTemp_lt halloc
      exact ⟨.one (.of_registers rfl (by simpa [Op.registers] using hr)), hr⟩
  | load a lane =>
      obtain ⟨slot, hslot, halloc, rfl⟩ := lowerValue_load_yields.mp h
      have hr := allocTemp_lt halloc
      have hcell := (sound.mono (allocTemp_restored halloc).toGrows).slotOf hslot
      exact ⟨.one ⟨by simpa [Op.registers] using hr, by simpa [Op.cells] using hcell⟩, hr⟩
  | param i =>
      obtain ⟨hr, rfl, rfl⟩ := lowerValue_param_yields.mp h
      exact ⟨.nil, sound.registerOfParam hr⟩
  | var i =>
      obtain ⟨hr, rfl, rfl⟩ := lowerValue_var_yields.mp h
      exact ⟨.nil, sound.registerOfVar hr⟩
  | binary op lhs rhs ihl ihr =>
      obtain ⟨lhsCode, x, u, rhsCode, y, w, hl, hr, halloc, rfl⟩ := lowerValue_binary_yields.mp h
      obtain ⟨hlhs, hx⟩ := ihl sound hl
      obtain ⟨hrhs, hy⟩ := ihr (sound.mono (lowerValue_restored hl).1.toGrows) hr
      have growsRight := (lowerValue_restored hr).1.toGrows
      have growsLast := (allocTemp_restored halloc).toGrows
      have hdst := allocTemp_lt halloc
      have hx' := Nat.lt_of_lt_of_le hx (growsRight.trans growsLast).registerPeak
      have hy' := Nat.lt_of_lt_of_le hy growsLast.registerPeak
      refine ⟨.append (.append (hlhs.grows (growsRight.trans growsLast)) (hrhs.grows growsLast)) ?_,
        hdst⟩
      exact .one (.of_registers rfl (by simp [Op.registers, hdst, hx', hy']))

/-- The code of an assignment stays within. -/
theorem lowerAssign_within (sound : f.Sound lanes s) {dst : Place} {v : Value}
    (h : (lowerAssign f dst v).Yields s code t) : AllWithin lanes t code := by
  cases dst with
  | lane a lane =>
      obtain ⟨front, src, slot, hv, hslot, rfl⟩ := lowerAssign_lane_yields.mp h
      obtain ⟨hfront, hsrc⟩ := lowerValue_within sound hv
      have hcell := (sound.mono (lowerValue_restored hv).1.toGrows).slotOf hslot
      exact hfront.append
        (.one ⟨by simpa [Op.registers] using hsrc, by simpa [Op.cells] using hcell⟩)
  | var i =>
      obtain ⟨front, src, dst, hv, hdst, rfl⟩ := lowerAssign_var_yields.mp h
      obtain ⟨hfront, hsrc⟩ := lowerValue_within sound hv
      have hdst := (sound.mono (lowerValue_restored hv).1.toGrows).registerOfVar hdst
      exact hfront.append (.one (.of_registers rfl (by simp [Op.registers, hsrc, hdst])))

/-- What a callee is given has the lanes that its parameter promises. -/
theorem lowerArg_within (sound : f.Sound lanes s) {callee : Routine} {index : Nat}
    {kind : ParamKind} {arg : Arg} {b : Binding}
    (h : (lowerArg f callee index kind arg).Yields s (code, b) t) :
    AllWithin lanes t code ∧ Promised lanes t b kind := by
  obtain ⟨a, slot, -, -, hslot, rfl, rfl, rfl⟩ |
    ⟨v, front, temp, u, register, -, -, hv, hregister, rfl, rfl⟩ := lowerArg_yields.mp h
  · obtain ⟨hpeak, hlane⟩ := sound.slotOf hslot
    exact ⟨.nil, hpeak, by omega⟩
  · obtain ⟨hfront, htemp⟩ := lowerValue_within sound hv
    have grows := allocRegister_grows hregister
    have htemp' := Nat.lt_of_lt_of_le htemp grows.registerPeak
    have hdst := allocRegister_lt hregister
    exact ⟨(hfront.grows grows).append
      (.one (.of_registers rfl (by simp [Op.registers, htemp', hdst]))), hdst⟩

/-- The code of arguments stays within, and their bindings are what the kinds promise. -/
theorem lowerArgs_within (sound : f.Sound lanes s) {callee : Routine} {index : Nat}
    {args : List (ParamKind × Arg)} {bindings : List Binding}
    (h : (lowerArgs f callee index args).Yields s (code, bindings) t) :
    AllWithin lanes t code ∧ List.Forall₂ (Promised lanes t) bindings (args.map Prod.fst) := by
  induction args generalizing s code bindings index with
  | nil =>
      obtain ⟨rfl, rfl, rfl⟩ := lowerArgs_nil_yields.mp h
      exact ⟨.nil, .nil⟩
  | cons arg rest ih =>
      obtain ⟨kind, arg⟩ := arg
      obtain ⟨front, b, u, back, others, harg, hrest, rfl, rfl⟩ := lowerArgs_cons_yields.mp h
      obtain ⟨hfront, hpromised⟩ := lowerArg_within sound harg
      obtain ⟨hback, hothers⟩ := ih (sound.mono (lowerArg_grows harg)) hrest
      have grows := lowerArgs_grows hrest
      exact ⟨(hfront.grows grows).append hback,
        .cons (hpromised.mono grows.registerPeak grows.slotPeak) hothers⟩

/-! ## Statements and blocks -/

/-- Callees whose parameters are sound are expanded to code that stays inside,
above the slots below `base`. -/
def Expander.Confined (expand : Expander) (lanes : Nat → Nat) (base : Nat) : Prop :=
  ∀ ⦃body⦄, expand = some body → ∀ ⦃callee bindings onReturn s placed t⦄, base ≤ s.slotTop →
    List.Forall₂ (Promised lanes s) bindings callee.params → Within lanes s onReturn →
    (body callee bindings onReturn).Yields s placed t → AllWithin lanes t placed

variable {m : Module} {expand : Expander} {base : Nat}

/-- The code of a call stays within, if callees do. -/
theorem lowerCall_within (hexpand : expand.Restores) (confined : expand.Confined lanes base)
    (hbase : base ≤ s.slotTop) (sound : f.Sound lanes s) {id : Nat} {args : List Arg}
    (h : (lowerCall m expand f id args).Yields s code t) : AllWithin lanes t code := by
  obtain ⟨callee, body, argCode, bindings, u, placed, w, -, -, hbody, hlength, hargs, hrun, rfl,
    rfl⟩ := lowerCall_yields.mp h
  obtain ⟨hargCode, hpromised⟩ := lowerArgs_within sound hargs
  rw [List.map_fst_zip (Nat.le_of_eq hlength)] at hpromised
  have hbase' : base ≤ u.slotTop := (lowerArgs_grows hargs).slotTop ▸ hbase
  have hplaced : AllWithin lanes w placed :=
    confined hbody (s := { u with path := id :: u.path }) hbase'
      (hpromised.imp fun _ _ promised => promised.mono (Nat.le_refl _) (Nat.le_refl _))
        (.jump _) hrun
  have grows := (hexpand hbody hrun).toGrows
  have hall : AllWithin lanes w (argCode ++ Ir.embed placed) :=
    (hargCode.mono grows.registerPeak grows.slotPeak).append hplaced.embed
  exact hall.mono (Nat.le_refl _) (Nat.le_refl _)

/-- The code of a statement stays within, if callees do. -/
theorem lowerStmt_within (hexpand : expand.Restores) (confined : expand.Confined lanes base)
    (hbase : base ≤ s.slotTop) (sound : f.Sound lanes s) {stmt : Stmt}
    (h : (lowerStmt m expand f stmt).Yields s code t) : AllWithin lanes t code := by
  cases stmt with
  | assign dst value => exact lowerAssign_within sound h
  | call id args => exact lowerCall_within hexpand confined hbase sound h

/-- The code of statements stays within, if callees do. -/
theorem lowerStmts_within (hexpand : expand.Restores) (confined : expand.Confined lanes base)
    (hbase : base ≤ s.slotTop) (sound : f.Sound lanes s) {stmts : List Stmt}
    (h : (lowerStmts m expand f stmts).Yields s code t) : AllWithin lanes t code := by
  induction stmts generalizing s code with
  | nil =>
      obtain ⟨rfl, -⟩ := lowerStmts_nil_yields.mp h
      exact .nil
  | cons stmt rest ih =>
      obtain ⟨front, u, back, hstmt, hrest, rfl⟩ := lowerStmts_cons_yields.mp h
      have soundStmt := sound.mono (dropTemps_restored s).toGrows
      have restored := (dropTemps_restored s).trans (lowerStmt_restored hexpand hstmt)
      have hfront : AllWithin lanes u front :=
        lowerStmt_within hexpand confined (s := s.dropTemps) hbase soundStmt hstmt
      have hback := ih (restored.slotTop ▸ hbase) (sound.mono restored.toGrows) hrest
      exact (hfront.grows (lowerStmts_restored hexpand hrest).toGrows).append hback

/-- The code of a terminator stays within. -/
theorem lowerTerminator_within (sound : f.Sound lanes s) {terminator : Terminator}
    (h : (lowerTerminator f terminator).Yields s code t) : AllWithin lanes t code := by
  cases terminator with
  | ret =>
      obtain ⟨rfl, rfl⟩ := lowerTerminator_ret_yields.mp h
      exact .one sound.onReturn
  | jump b =>
      obtain ⟨target, -, rfl, rfl⟩ := lowerTerminator_jump_yields.mp h
      exact .one (.jump target)
  | branch op lhs rhs onTrue onFalse =>
      obtain ⟨lhsCode, x, u, rhsCode, y, _, _, hl, hr, -, -, rfl⟩ :=
        lowerTerminator_branch_yields.mp h
      obtain ⟨hlhs, hx⟩ := lowerValue_within sound hl
      obtain ⟨hrhs, hy⟩ := lowerValue_within (sound.mono (lowerValue_restored hl).1.toGrows) hr
      have grows := (lowerValue_restored hr).1.toGrows
      have hx' := Nat.lt_of_lt_of_le hx grows.registerPeak
      exact ((hlhs.grows grows).append hrhs).append
        (.one (.of_registers rfl (by simp [Op.registers, hx', hy])))

/-- The code of a block stays within, if callees do. -/
theorem lowerBlock_within (hexpand : expand.Restores) (confined : expand.Confined lanes base)
    (hbase : base ≤ s.slotTop) (sound : f.Sound lanes s) {index : Nat} {b : Block}
    (h : (lowerBlock m expand f index b).Yields s code t) : AllWithin lanes t code := by
  obtain ⟨front, u, terminator, back, hstmts, -, hend, rfl⟩ := lowerBlock_yields.mp h
  have hfront := lowerStmts_within hexpand confined hbase sound hstmts
  have restored := (lowerStmts_restored hexpand hstmts).trans (dropTemps_restored u)
  have hback := lowerTerminator_within (sound.mono restored.toGrows) hend
  have grows := ((dropTemps_restored u).trans (lowerTerminator_restored hend)).toGrows
  exact (hfront.grows grows).append hback

/-- The code of blocks stays within, if callees do. -/
theorem lowerBlocks_within (hexpand : expand.Restores) (confined : expand.Confined lanes base)
    (hbase : base ≤ s.slotTop) (sound : f.Sound lanes s) {index : Nat} {blocks : List Block}
    {fragments : List Fragment}
    (h : (lowerBlocks m expand f index blocks).Yields s fragments t) :
    ∀ code ∈ fragments, AllWithin lanes t code := by
  induction blocks generalizing s fragments index with
  | nil =>
      obtain ⟨rfl, -⟩ := lowerBlocks_nil_yields.mp h
      exact fun _ hcode => absurd hcode List.not_mem_nil
  | cons b rest ih =>
      obtain ⟨front, u, back, hb, hrest, rfl⟩ := lowerBlocks_cons_yields.mp h
      have hfront := lowerBlock_within hexpand confined hbase sound hb
      have restored := lowerBlock_restored hexpand hb
      have hback := ih (restored.slotTop ▸ hbase) (sound.mono restored.toGrows) hrest
      intro code hcode
      obtain rfl | hcode := List.mem_cons.mp hcode
      · exact hfront.grows (lowerBlocks_restored hexpand hrest).toGrows
      · exact hback code hcode

/-! ## Routines -/

/-- Slots in a row lie below the peak that they leave. -/
theorem Storage.slotTop_add_le_takeSlots {n : Nat} (hn : 0 < n) :
    s.slotTop + n ≤ (s.takeSlots n).slotPeak := by
  induction n generalizing s with
  | zero => omega
  | succ n ih =>
      cases n with
      | zero =>
          simp only [takeSlots, takeSlot]
          omega
      | succ n =>
          have hrest := ih (s := s.takeSlot) (Nat.succ_pos n)
          simp only [takeSlots, takeSlot] at hrest ⊢
          omega

/-- Registers in a row lie below the peak that they leave. -/
theorem Storage.registerTop_add_le_takeRegisters {n : Nat} (hn : 0 < n) :
    s.registerTop + n ≤ (s.takeRegisters n).registerPeak := by
  induction n generalizing s with
  | zero => omega
  | succ n ih =>
      cases n with
      | zero =>
          simp only [takeRegisters, takeRegister]
          omega
      | succ n =>
          have hrest := ih (s := s.takeRegister) (Nat.succ_pos n)
          simp only [takeRegisters, takeRegister] at hrest ⊢
          omega

/-- The frame of a routine whose parameters are sound is sound on the routine's
own storage. -/
theorem Frame.Sound.above (hlanes : ∀ slot, base ≤ slot → 4 ≤ lanes slot) (hbase : base ≤ s.slotTop)
    {routine : Routine} {params : List Binding} {onReturn : Op Target}
    (hslots : routine.temps = 0 ∨ s.slotTop + routine.temps ≤ maxSlots)
    (hregisters : routine.vars = 0 ∨ s.registerTop + routine.vars ≤ maxRegisters)
    (hparams : List.Forall₂ (Promised lanes s) params routine.params)
    (hreturn : Within lanes s onReturn) :
    (Frame.above routine params onReturn s).Sound lanes (s.enter routine) := by
  obtain ⟨hregisterPeak, hslotPeak, -⟩ := takeSlots_peaks hslots
  obtain ⟨hsame, hpeak, -⟩ := takeRegisters_peaks (s := s.takeSlots routine.temps)
    (n := routine.vars) (by rwa [registerTop_takeSlots])
  rw [hregisterPeak] at hpeak
  have hslotPeak' : s.slotPeak ≤ (s.enter routine).slotPeak := by
    rw [enter, hsame]
    exact hslotPeak
  refine ⟨hparams.imp fun _ _ promised => promised.mono hpeak hslotPeak', fun slot hslot => ?_,
    fun r hr => ?_, hreturn.mono hpeak hslotPeak'⟩
  · obtain ⟨i, hi, rfl⟩ := List.mem_range'.mp hslot
    have htop := slotTop_add_le_takeSlots (s := s) (n := routine.temps) (by omega)
    refine ⟨?_, hlanes _ (by omega)⟩
    rw [enter, hsame]
    omega
  · obtain ⟨i, hi, rfl⟩ := List.mem_range'.mp hr
    have htop := registerTop_add_le_takeRegisters (s := s.takeSlots routine.temps)
      (n := routine.vars) (by omega)
    rw [registerTop_takeSlots] at htop
    simp only [enter]
    omega

/-- The code of a routine stays within, if callees do and its parameters are promised. -/
theorem lowerRoutine_within (hlanes : ∀ slot, base ≤ slot → 4 ≤ lanes slot)
    (hexpand : expand.Restores) (confined : expand.Confined lanes base) (hbase : base ≤ s.slotTop)
    {routine : Routine} {params : List Binding} {onReturn : Op Target} {placed : PlacedCode}
    (hparams : List.Forall₂ (Promised lanes s) params routine.params)
    (hreturn : Within lanes s onReturn)
    (h : (lowerRoutine m expand routine params onReturn).Yields s placed t) :
    AllWithin lanes t placed := by
  obtain ⟨hslots, hregisters, blocks, u, hblocks, rfl, rfl⟩ := lowerRoutine_yields.mp h
  have sound := Frame.Sound.above hlanes hbase hslots hregisters hparams hreturn
  have hbase' : base ≤ (s.enter routine).slotTop := by
    rw [slotTop_enter]
    omega
  have hplaced : AllWithin lanes u (place blocks) :=
    .place (lowerBlocks_within hexpand confined hbase' sound hblocks)
  exact hplaced.mono (Nat.le_refl _) (Nat.le_refl _)

/-- **All code of an expanded routine stays inside what was handed out**, and
inside the lanes that its parameters have. -/
theorem expandRoutine_within (hlanes : ∀ slot, base ≤ slot → 4 ≤ lanes slot) {depth : Nat}
    {routine : Routine} {params : List Binding} {onReturn : Op Target} {placed : PlacedCode}
    (hbase : base ≤ s.slotTop) (hparams : List.Forall₂ (Promised lanes s) params routine.params)
    (hreturn : Within lanes s onReturn)
    (h : (expandRoutine m depth routine params onReturn).Yields s placed t) :
    AllWithin lanes t placed := by
  induction depth generalizing routine params onReturn s placed t with
  | zero =>
      refine lowerRoutine_within hlanes ?_ ?_ hbase hparams hreturn h
      · intro body hbody
        cases hbody
      · intro body hbody
        cases hbody
  | succ depth ih =>
      refine lowerRoutine_within hlanes (expandRoutine_restores m depth) ?_ hbase hparams hreturn h
      intro body hbody callee bindings onReturn s placed t hbase hbindings hreturn hrun
      obtain rfl := Option.some.inj hbody
      exact ih hbase hbindings hreturn hrun

end

end PixelPipeline.Ir
