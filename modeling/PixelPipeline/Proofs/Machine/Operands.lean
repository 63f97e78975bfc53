import PixelPipeline.Machine.Run

/-!
# What an operation names

The registers, the cells and the targets that stand in an operation.  Putting
code in its place replaces targets only.
-/

namespace PixelPipeline.Machine.Op

variable {σ τ : Type}

/-- The targets of an operation. -/
def targets : Op τ → List τ
  | .jump target => [target]
  | .branch _ _ _ t e => [t, e]
  | _ => []

/-- The registers that an operation reads and writes. -/
def registers : Op τ → List Nat
  | .const dst _ => [dst]
  | .load dst _ _ => [dst]
  | .store _ _ src => [src]
  | .move dst src => [dst, src]
  | .binary _ dst lhs rhs => [dst, lhs, rhs]
  | .branch _ lhs rhs _ _ => [lhs, rhs]
  | .jump _ | .ret => []

/-- The cells that an operation reads and writes, each a slot and a lane. -/
def cells : Op τ → List (Nat × Nat)
  | .load _ slot lane => [(slot, lane)]
  | .store slot lane _ => [(slot, lane)]
  | _ => []

/-- Renaming targets renames the targets of an operation. -/
@[simp] theorem targets_mapTargets (g : σ → τ) (op : Op σ) :
    (op.mapTargets g).targets = op.targets.map g := by
  cases op <;> rfl

/-- Renaming targets leaves the registers of an operation. -/
@[simp] theorem registers_mapTargets (g : σ → τ) (op : Op σ) :
    (op.mapTargets g).registers = op.registers := by
  cases op <;> rfl

/-- Renaming targets leaves the slots and lanes of an operation. -/
@[simp] theorem cells_mapTargets (g : σ → τ) (op : Op σ) :
    (op.mapTargets g).cells = op.cells := by
  cases op <;> rfl

/-- Control goes nowhere but to a target. -/
theorem exec_goto {op : Op Nat} {s t : State} {target : Nat} (h : op.exec s = (t, .goto target)) :
    target ∈ op.targets := by
  cases op with
  | jump onward =>
      obtain ⟨-, rfl⟩ : s = t ∧ onward = target := by simpa [Op.exec] using h
      exact List.mem_singleton_self _
  | branch op lhs rhs onTrue onFalse =>
      simp only [Op.exec, Prod.mk.injEq, Control.goto.injEq] at h
      obtain ⟨-, rfl⟩ := h
      simp only [targets]
      split <;> simp
  | const | load | store | move | binary | ret => simp [Op.exec] at h

end PixelPipeline.Machine.Op
