import PixelPipeline.Proofs.Machine.Operands

/-!
# Well-formed programs

The machine has 64 registers and 16 slots of four lanes, and an access beyond
them has no meaning.  `runFrom?` runs with every access and every fetch checked
and has no result when one of them fails.

A well-formed program names only the registers and slots of its frame, only the
lanes that a slot has, and only targets that lie ahead and inside the code.  So
no check fails, whatever the machine holds, and since each step goes forward the
return at the end is met after one step per operation at the latest.

* `Op.exec?_eq` — an operation that stays inside the machine does what it does
  unchecked;
* `Program.WellFormed` — what a program may name;
* `Program.WellFormed.returns` — a well-formed program returns.
-/

namespace PixelPipeline.Machine

open Ir

/-! ## Checked execution -/

namespace State

/-- The contents of a register, if the machine has it. -/
def register? (s : State) (r : Nat) : Option Binary32 := s.registers[r]?

/-- The contents of a cell, if the machine has it. -/
def lane? (s : State) (slot lane : Nat) : Option Binary32 := do
  let contents ← s.slots[slot]?
  contents[lane]?

/-- Writes a register, if the machine has it. -/
def setRegister? (s : State) (r : Nat) (value : Binary32) : Option State :=
  if r < maxRegisters then some (s.setRegister r value) else none

/-- Writes a cell, if the machine has it. -/
def setLane? (s : State) (slot lane : Nat) (value : Binary32) : Option State :=
  if slot < maxSlots ∧ lane < 4 then some (s.setLane slot lane value) else none

variable {s : State} {r slot lane : Nat}

/-- A register of the machine can be read. -/
theorem register?_eq (hr : r < maxRegisters) : s.register? r = some (s.register r) := by
  simp [register?, register, hr]

/-- A lane of the machine can be read. -/
theorem lane?_eq (hslot : slot < maxSlots) (hlane : lane < 4) :
    s.lane? slot lane = some (s.lane slot lane) := by
  simp [lane?, State.lane, State.slot, hslot, hlane]

end State

/-- The effect of an operation all of whose accesses the machine can make. -/
def Op.exec? (s : State) : Op Nat → Option (State × Control)
  | .const dst value => do
    let t ← s.setRegister? dst value
    return (t, .next)
  | .load dst slot lane => do
    let value ← s.lane? slot lane
    let t ← s.setRegister? dst value
    return (t, .next)
  | .store slot lane src => do
    let value ← s.register? src
    let t ← s.setLane? slot lane value
    return (t, .next)
  | .move dst src => do
    let value ← s.register? src
    let t ← s.setRegister? dst value
    return (t, .next)
  | .binary op dst lhs rhs => do
    let x ← s.register? lhs
    let y ← s.register? rhs
    let t ← s.setRegister? dst (op.eval x y)
    return (t, .next)
  | .jump target => some (s, .goto target)
  | .branch op lhs rhs t e => do
    let x ← s.register? lhs
    let y ← s.register? rhs
    return (s, .goto (if op.eval x y then t else e))
  | .ret => some (s, .stop)

/-- Runs from a position for at most `fuel` steps, as long as every operation is
there and the machine can make its accesses. -/
def runFrom? (code : Array (Op Nat)) :
    (fuel : Nat) → (counter : Nat) → State → Option (State × Ending)
  | 0, _, s => some (s, .unfinished)
  | fuel + 1, pc, s => do
    let op ← code[pc]?
    match ← op.exec? s with
    | (t, .next) => runFrom? code fuel (pc + 1) t
    | (t, .goto target) => runFrom? code fuel target t
    | (t, .stop) => some (t, .returned)

/-- An operation that stays inside the machine does what it does unchecked. -/
theorem Op.exec?_eq {op : Op Nat} (s : State) (hregisters : ∀ r ∈ op.registers, r < maxRegisters)
    (hcells : ∀ cell ∈ op.cells, cell.1 < maxSlots ∧ cell.2 < 4) :
    op.exec? s = some (op.exec s) := by
  cases op <;>
    simp only [Op.registers, Op.cells, List.mem_cons, List.not_mem_nil, or_false, forall_eq,
      forall_eq_or_imp] at hregisters hcells <;>
    simp [Op.exec?, Op.exec, State.setRegister?, State.setLane?, State.register?_eq,
      State.lane?_eq, hregisters, hcells]

/-! ## Well-formed programs -/

/-- A parameter is where its kind belongs, inside the frame. -/
def Binding.Fits (registers slots : Nat) (kind : ParamKind) : Binding → Prop
  | .slot index => kind ≠ .scalar ∧ index < slots
  | .register index => kind = .scalar ∧ index < registers

/-- A program names nothing beyond its frame, and its frame fits the machine. -/
structure Program.WellFormed (p : Program) : Prop where
  ends : p.code.back? = some .ret
  targets : ∀ (i : Nat) (op : Op Nat), p.code[i]? = some op →
    ∀ target ∈ op.targets, i < target ∧ target < p.code.size
  registers : ∀ op ∈ p.code, ∀ r ∈ op.registers, r < p.registers
  slots : ∀ op ∈ p.code, ∀ cell ∈ op.cells, cell.1 < p.slots
  lanes : ∀ op ∈ p.code, ∀ cell ∈ op.cells, cell.2 < 4
  /-- Only lane 0 is named where a single float is passed by reference. -/
  scalarLanes : ∀ op ∈ p.code, ∀ cell ∈ op.cells,
    (ParamKind.scalarPtr, Binding.slot cell.1) ∈ p.params → cell.2 = 0
  registers_le : p.registers ≤ maxRegisters
  slots_le : p.slots ≤ maxSlots
  params : ∀ param ∈ p.params, param.2.Fits p.registers p.slots param.1
  distinct : (p.params.map Prod.snd).Nodup

namespace Program.WellFormed

variable {p : Program}

/-- A well-formed program has code. -/
theorem nonempty (h : p.WellFormed) : 0 < p.code.size := by
  obtain ⟨hsize, -⟩ := Array.getElem?_eq_some_iff.mp (Array.back?_eq_getElem? ▸ h.ends)
  omega

/-- Every operation but the last has another one behind it. -/
theorem succ_lt (h : p.WellFormed) {pc : Nat} {op : Op Nat} (hop : p.code[pc]? = some op)
    (hne : op ≠ .ret) : pc + 1 < p.code.size := by
  obtain ⟨hpc, -⟩ := Array.getElem?_eq_some_iff.mp hop
  by_cases hlast : pc + 1 = p.code.size
  · have hends := h.ends
    rw [Array.back?_eq_getElem?, ← hlast, Nat.add_sub_cancel, hop] at hends
    exact absurd (Option.some.inj hends) hne
  · omega

/-- **No operation of a well-formed program** is refused by the checked machine. -/
theorem exec?_eq (h : p.WellFormed) {pc : Nat} {op : Op Nat} (hop : p.code[pc]? = some op)
    (s : State) : op.exec? s = some (op.exec s) := by
  have hmem := Array.mem_of_getElem? hop
  refine Op.exec?_eq s (fun r hr => ?_) fun cell hcell => ⟨?_, h.lanes op hmem cell hcell⟩
  · exact Nat.lt_of_lt_of_le (h.registers op hmem r hr) h.registers_le
  · exact Nat.lt_of_lt_of_le (h.slots op hmem cell hcell) h.slots_le

/-- One step for each operation from a position on is enough to return. -/
theorem runFrom_returns (h : p.WellFormed) {fuel pc : Nat} (hpc : pc < p.code.size)
    (hfuel : p.code.size ≤ pc + fuel) (s : State) :
    ∃ t, runFrom? p.code fuel pc s = some (t, .returned) ∧
      ∀ extra, runFrom p.code (fuel + extra) pc s = (t, .returned) := by
  induction fuel generalizing pc s with
  | zero => omega
  | succ fuel ih =>
      have hop : p.code[pc]? = some p.code[pc] := Array.getElem?_eq_getElem hpc
      have hexec := h.exec?_eq hop s
      -- each kind of control goes on from a later position, or stops
      have honward : ∀ {next : Nat} {t : State}, pc < next → next < p.code.size →
          ∃ u, runFrom? p.code fuel next t = some (u, .returned) ∧
            ∀ extra, runFrom p.code (fuel + extra) next t = (u, .returned) :=
        fun hlt hnext => ih hnext (by omega) _
      simp only [runFrom?, Nat.add_right_comm fuel 1, runFrom, hop, hexec, Option.bind_eq_bind,
        Option.bind_some]
      cases hcontrol : p.code[pc].exec s with
      | mk t control =>
          cases control with
          | next =>
              refine honward (Nat.lt_succ_self pc) (h.succ_lt hop fun hret => ?_)
              rw [hret] at hcontrol
              cases hcontrol
          | goto target =>
              obtain ⟨hahead, hinside⟩ := h.targets pc _ hop target (Op.exec_goto hcontrol)
              exact honward hahead hinside
          | stop => exact ⟨t, rfl, fun extra => rfl⟩

/-- **A well-formed program returns**, from whatever the machine holds, without
an access that the machine cannot make, after at most one step for each
operation. -/
theorem returns (h : p.WellFormed) (s : State) :
    ∃ t, runFrom? p.code p.code.size 0 s = some (t, .returned) ∧ p.run s = (t, .returned) := by
  obtain ⟨t, hchecked, hrun⟩ := h.runFrom_returns h.nonempty (Nat.le_add_left _ _) s
  exact ⟨t, hchecked, hrun 1⟩

end Program.WellFormed

end PixelPipeline.Machine
