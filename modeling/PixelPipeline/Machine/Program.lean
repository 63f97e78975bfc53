import PixelPipeline.Ir.Fault

/-!
# Register-machine programs

A program is flat code over numbered registers and four-lane array slots.  The
type of operations is parametric in its jump targets: code under construction
jumps by displacement or to a block, finished code to an absolute position.
-/

namespace PixelPipeline.Machine

open Ir

/-- One operation, with jump targets in `τ`. -/
inductive Op (τ : Type) where
  | const (dst : Nat) (value : Binary32)
  | load (dst slot lane : Nat)
  | store (slot lane src : Nat)
  | move (dst src : Nat)
  | binary (op : BinOp) (dst lhs rhs : Nat)
  | jump (target : τ)
  | branch (op : CmpOp) (lhs rhs : Nat) (thenTarget elseTarget : τ)
  | ret

namespace Op

/-- Replaces the targets, the one taken on success first. -/
def mapTargets {σ τ : Type} (f : σ → τ) : Op σ → Op τ
  | .const dst value => .const dst value
  | .load dst slot lane => .load dst slot lane
  | .store slot lane src => .store slot lane src
  | .move dst src => .move dst src
  | .binary op dst lhs rhs => .binary op dst lhs rhs
  | .jump target => .jump (f target)
  | .branch op lhs rhs t e => .branch op lhs rhs (f t) (f e)
  | .ret => .ret

/-- Replaces the targets when each of them can be; the first that cannot be
decides the fault. -/
def traverseTargets {σ τ ε : Type} (f : σ → Except ε τ) : Op σ → Except ε (Op τ)
  | .const dst value => .ok (.const dst value)
  | .load dst slot lane => .ok (.load dst slot lane)
  | .store slot lane src => .ok (.store slot lane src)
  | .move dst src => .ok (.move dst src)
  | .binary op dst lhs rhs => .ok (.binary op dst lhs rhs)
  | .jump target => do return .jump (← f target)
  | .branch op lhs rhs t e => do
    let onTrue ← f t
    let onFalse ← f e
    return .branch op lhs rhs onTrue onFalse
  | .ret => .ok .ret

/-- Whether the operation chooses between two targets. -/
def isBranch {τ : Type} : Op τ → Bool
  | .branch .. => true
  | _ => false

/-- Whether the operation ends the program. -/
def isRet {τ : Type} : Op τ → Bool
  | .ret => true
  | _ => false

end Op

/-- Where a parameter lives. -/
inductive Binding where
  | slot (index : Nat)
  | register (index : Nat)
  deriving DecidableEq, Repr

/-- The number of the slot or register. -/
def Binding.index : Binding → Nat
  | .slot i => i
  | .register i => i

/-- A finished program. -/
structure Program where
  code : Array (Op Nat)
  params : List (ParamKind × Binding)
  /-- How many registers the code may touch. -/
  registers : Nat
  /-- How many slots the code may touch. -/
  slots : Nat

namespace Program

/-- How many operations choose between two targets. -/
def branchCount (p : Program) : Nat := p.code.countP Op.isBranch

/-- The bytes that an operation occupies. -/
def opSize : Nat := 12

/-- The bytes that the code occupies. -/
def codeSize (p : Program) : Nat := opSize * p.code.size

end Program

end PixelPipeline.Machine
