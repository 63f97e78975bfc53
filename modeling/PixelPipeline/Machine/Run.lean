import PixelPipeline.Color
import PixelPipeline.Machine.Program

/-!
# Running programs

The machine has 64 registers and 16 slots of four lanes.  A step reads and
writes them and moves the program counter; the run stops at a return, or when
the counter leaves the code.  Every target of a finished program lies ahead of
its operation, so a run takes at most one step per operation, and `run` bounds
itself by that count.

Operands beyond the machine's frame read as zero and are not written.  No
finished program has such operands.
-/

namespace PixelPipeline.Machine

open Ir

/-- The contents of registers and slots. -/
structure State where
  registers : Vector Binary32 maxRegisters
  slots : Vector Color maxSlots

namespace State

/-- Everything zero. -/
def empty : State :=
  ⟨Vector.replicate maxRegisters Binary32.zero, Vector.replicate maxSlots Color.transparent⟩

/-- The contents of a register. -/
def register (s : State) (r : Nat) : Binary32 := s.registers[r]?.getD Binary32.zero

/-- The contents of a slot. -/
def slot (s : State) (i : Nat) : Color := s.slots[i]?.getD Color.transparent

/-- The contents of one lane. -/
def lane (s : State) (i lane : Nat) : Binary32 := (s.slot i)[lane]?.getD Binary32.zero

/-- Writes a register. -/
def setRegister (s : State) (r : Nat) (value : Binary32) : State :=
  { s with registers := s.registers.setIfInBounds r value }

/-- Writes a slot. -/
def setSlot (s : State) (i : Nat) (value : Color) : State :=
  { s with slots := s.slots.setIfInBounds i value }

/-- Writes one lane. -/
def setLane (s : State) (i lane : Nat) (value : Binary32) : State :=
  s.setSlot i ((s.slot i).setIfInBounds lane value)

end State

/-- Where control goes after an operation. -/
inductive Control where
  | next
  | goto (target : Nat)
  | stop
  deriving DecidableEq, Repr

/-- The effect of one operation. -/
def Op.exec (s : State) : Op Nat → State × Control
  | .const dst value => (s.setRegister dst value, .next)
  | .load dst slot lane => (s.setRegister dst (s.lane slot lane), .next)
  | .store slot lane src => (s.setLane slot lane (s.register src), .next)
  | .move dst src => (s.setRegister dst (s.register src), .next)
  | .binary op dst lhs rhs =>
    (s.setRegister dst (op.eval (s.register lhs) (s.register rhs)), .next)
  | .jump target => (s, .goto target)
  | .branch op lhs rhs t e =>
    (s, .goto (if op.eval (s.register lhs) (s.register rhs) then t else e))
  | .ret => (s, .stop)

/-- How a run ended. -/
inductive Ending where
  | returned
  /-- The counter left the code. -/
  | ranOff
  /-- The bound on the number of steps was reached. -/
  | unfinished
  deriving DecidableEq, Repr

/-- Runs from a position for at most `fuel` steps. -/
def runFrom (code : Array (Op Nat)) : (fuel : Nat) → (counter : Nat) → State → State × Ending
  | 0, _, s => (s, .unfinished)
  | fuel + 1, pc, s =>
    match code[pc]? with
    | none => (s, .ranOff)
    | some op =>
      match op.exec s with
      | (s, .next) => runFrom code fuel (pc + 1) s
      | (s, .goto target) => runFrom code fuel target s
      | (s, .stop) => (s, .returned)

/-- Runs a program from its first operation.  The bound leaves room for every
operation once and for leaving the code. -/
def Program.run (p : Program) (s : State) : State × Ending :=
  runFrom p.code (p.code.size + 1) 0 s

end PixelPipeline.Machine
