import PixelPipeline.Ir.Fault

/-!
# Building a routine step by step

A builder holds a routine under construction and the block that receives
statements.  Steps never fail on the spot: the first misuse is remembered, the
later steps still run, and `finish` reports it.  So `finish` succeeds exactly
when every statement and every end met an open block, no ninth temporary array
was requested, and no block was left open.

Blocks, variables and routines are numbered by natural numbers.  Numbers in words
of 32 bits, cut without a check, are the same below 2^32 blocks, variables and
routines.
-/

namespace PixelPipeline.Ir

/-- A routine under construction. -/
structure Builder where
  routine : Routine
  /-- The block that receives statements; it need not exist. -/
  current : Nat
  /-- The first misuse. -/
  fault : Option CompileFault

namespace Builder

/-- A routine with one open block. -/
def start (name : String) (params : List ParamKind) : Builder :=
  { routine := ⟨name, params, 0, 0, [default]⟩, current := 0, fault := none }

/-- Remembers a misuse unless there was an earlier one. -/
def misuse (b : Builder) (fault : CompileFault) : Builder :=
  { b with fault := b.fault.or (some fault) }

/-- Declares one more scalar variable. -/
def addVar (b : Builder) : Builder :=
  { b with routine := { b.routine with vars := b.routine.vars + 1 } }

/-- Declares one more temporary array. -/
def addTemp (b : Builder) : Builder :=
  let checked := if b.routine.temps < maxTemps then b else b.misuse (.tooManyTemps b.routine.name)
  { checked with routine := { b.routine with temps := b.routine.temps + 1 } }

/-- Adds an open block after the others. -/
def addBlock (b : Builder) : Builder :=
  { b with routine := { b.routine with blocks := b.routine.blocks ++ [default] } }

/-- Continues in the given block, whether it exists or not. -/
def switchTo (b : Builder) (block : Nat) : Builder := { b with current := block }

/-- Replaces the current block. -/
def setCurrent (b : Builder) (block : Block) : Builder :=
  { b with routine := { b.routine with blocks := b.routine.blocks.set b.current block } }

/-- Appends a statement to the current block. -/
def push (b : Builder) (stmt : Stmt) : Builder :=
  match b.routine.blocks[b.current]? with
  | none => b.misuse (.unknownBlock b.routine.name b.current)
  | some ⟨stmts, none⟩ => b.setCurrent ⟨stmts ++ [stmt], none⟩
  | some ⟨_, some _⟩ => b.misuse (.statementAfterEnd b.routine.name b.current)

/-- Ends the current block. -/
def close (b : Builder) (terminator : Terminator) : Builder :=
  match b.routine.blocks[b.current]? with
  | none => b.misuse (.unknownBlock b.routine.name b.current)
  | some ⟨stmts, none⟩ => b.setCurrent ⟨stmts, some terminator⟩
  | some ⟨_, some _⟩ => b.misuse (.endedTwice b.routine.name b.current)

/-- The first block without an end. -/
def openBlock? (b : Builder) : Option Nat :=
  b.routine.blocks.findIdx? fun block => block.terminator.isNone

/-- Adds the routine to the module under the next number, or reports the first
misuse, or the first open block. -/
def finish (b : Builder) (m : Module) : Except CompileFault (Module × Nat) :=
  match b.fault, b.openBlock? with
  | some fault, _ => .error fault
  | none, some block => .error (.openBlock b.routine.name block)
  | none, none =>
    .ok ({ m with routines := m.routines ++ [b.routine] }, m.routines.length)

end Builder

/-- One call of the builder. -/
inductive BuildStep where
  | addVar
  | addTemp
  | addBlock
  | switchTo (block : Nat)
  | push (stmt : Stmt)
  | close (terminator : Terminator)

namespace Builder

/-- The effect of a step. -/
def apply (b : Builder) : BuildStep → Builder
  | .addVar => b.addVar
  | .addTemp => b.addTemp
  | .addBlock => b.addBlock
  | .switchTo block => b.switchTo block
  | .push stmt => b.push stmt
  | .close terminator => b.close terminator

/-- The effect of steps from left to right. -/
def run (b : Builder) (steps : List BuildStep) : Builder := steps.foldl apply b

end Builder

end PixelPipeline.Ir
