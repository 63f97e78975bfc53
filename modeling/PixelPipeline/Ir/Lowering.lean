import PixelPipeline.Machine.Program

/-!
# From blocks to flat code

Lowering expands every call in place and gives arrays slots and scalars
registers.  Storage follows the call structure: a routine's storage lies above
that of its callers and is free again when its code ends, so the two tops of
`Storage` are what they were once an expansion is done, and only the peaks and
the emitted code remain.

Code is position-independent until the very end.  Inside a routine an operation
jumps to a block or to the exit; `place` turns these into displacements from the
operation itself, so the code of a callee is embedded in its caller unchanged.
`resolve` adds positions and refuses every jump that does not go forward, which
is why finished programs terminate.

A call may not name a routine that is already being expanded, and at most
`maxPath` routines are nested; the expansion recurses on what is left of that
number.

Positions and targets are natural numbers here.  A lowering that keeps them in
words of 32 bits, without a check, does the same while the finished code has
fewer than 2^32 operations, and may misplace its jumps from there on.
-/

namespace PixelPipeline.Ir

open Machine

/-- How many routines may be nested, the entry included. -/
def maxPath : Nat := 8

/-- What is in use while code is emitted. -/
structure Storage where
  /-- The first register that no routine under expansion owns. -/
  registerTop : Nat
  /-- The first register free for the current statement. -/
  tempTop : Nat
  /-- One more than the highest register handed out so far. -/
  registerPeak : Nat
  /-- The first slot that no routine under expansion owns. -/
  slotTop : Nat
  /-- One more than the highest slot handed out so far. -/
  slotPeak : Nat
  /-- The routines under expansion, innermost first. -/
  path : List Nat
  deriving DecidableEq, Repr

/-- Nothing in use. -/
def Storage.empty : Storage := ⟨0, 0, 0, 0, 0, []⟩

/-- Emission of code, which hands out storage and may be refused. -/
abbrev Lower : Type → Type := StateT Storage (Except CompileFault)

/-- A jump target inside a routine. -/
inductive Target where
  /-- Relative to the jump itself. -/
  | within (displacement : Int)
  | block (index : Nat)
  /-- Right behind the routine's code. -/
  | exit
  deriving DecidableEq, Repr

/-- Code of a statement. -/
abbrev Fragment : Type := List (Op Target)

/-- Code of a routine, independent of its position. -/
abbrev PlacedCode : Type := List (Op Int)

/-- The storage behind the names of one expanded routine. -/
structure Frame where
  routine : Routine
  params : List Binding
  temps : List Nat
  vars : List Nat
  /-- How the routine returns. -/
  onReturn : Op Target

/-! ## Storage -/

/-- A register that stays in use until the routine's code ends. -/
def allocRegister : Lower Nat := do
  let s ← get
  if s.registerTop < maxRegisters then
    set { s with
      registerTop := s.registerTop + 1
      tempTop := s.registerTop + 1
      registerPeak := max s.registerPeak (s.registerTop + 1) }
    return s.registerTop
  else throw .registersExhausted

/-- A register that is free again after the current statement. -/
def allocTemp : Lower Nat := do
  let s ← get
  if s.tempTop < maxRegisters then
    set { s with
      tempTop := s.tempTop + 1
      registerPeak := max s.registerPeak (s.tempTop + 1) }
    return s.tempTop
  else throw .temporariesExhausted

/-- A slot that stays in use until the routine's code ends. -/
def allocSlot : Lower Nat := do
  let s ← get
  if s.slotTop < maxSlots then
    set { s with slotTop := s.slotTop + 1, slotPeak := max s.slotPeak (s.slotTop + 1) }
    return s.slotTop
  else throw .slotsExhausted

/-- `n` allocations in a row. -/
def allocMany (alloc : Lower Nat) : Nat → Lower (List Nat)
  | 0 => return []
  | n + 1 => do
    let first ← alloc
    let rest ← allocMany alloc n
    return first :: rest

/-- Frees the temporaries of the previous statement. -/
def freeTemps : Lower Unit := modify fun s => { s with tempTop := s.registerTop }

/-- The binding for a parameter that nobody has bound yet. -/
def allocParam (kind : ParamKind) : Lower Binding :=
  match kind with
  | .vec4Ptr | .scalarPtr => return .slot (← allocSlot)
  | .scalar => return .register (← allocRegister)

/-! ## Names -/

namespace Frame

/-- The slot of an array and how many of its lanes the routine may address. -/
def array? (f : Frame) (a : ArrayRef) : Except CompileFault (Nat × Nat) :=
  match a with
  | .param i =>
    match f.routine.params[i]?, f.params[i]? with
    | some kind, some (.slot slot) => .ok (slot, kind.lanes)
    | _, _ => .error (.notReferenceParam f.routine.name a)
  | .temp i =>
    match f.temps[i]? with
    | some slot => .ok (slot, 4)
    | none => .error (.undeclaredTemp f.routine.name a)

/-- The slot of an array whose given lane is addressable. -/
def slotOf (f : Frame) (a : ArrayRef) (lane : Nat) : Except CompileFault Nat := do
  let (slot, lanes) ← f.array? a
  if lane < lanes then return slot
  else throw (.laneOutOfRange f.routine.name lane a)

/-- The register of a scalar variable. -/
def registerOfVar (f : Frame) (i : Nat) : Except CompileFault Nat :=
  match f.vars[i]? with
  | some r => .ok r
  | none => .error (.undeclaredVar f.routine.name i)

/-- The register of a parameter passed by value. -/
def registerOfParam (f : Frame) (i : Nat) : Except CompileFault Nat :=
  match f.params[i]? with
  | some (.register r) => .ok r
  | _ => .error (.notScalarParam f.routine.name i)

/-- The target for a block of the routine. -/
def blockTarget (f : Frame) (i : Nat) : Except CompileFault Target :=
  if i < f.routine.blocks.length then .ok (.block i)
  else .error (.missingBlock f.routine.name i)

end Frame

/-! ## Values and statements -/

/-- Code that evaluates a value, and the register that then holds it. -/
def lowerValue (f : Frame) : Value → Lower (Fragment × Nat)
  | .const v => do
    let dst ← allocTemp
    return ([.const dst v], dst)
  | .load a lane => do
    let slot ← f.slotOf a lane
    let dst ← allocTemp
    return ([.load dst slot lane], dst)
  | .param i => return ([], ← f.registerOfParam i)
  | .var i => return ([], ← f.registerOfVar i)
  | .binary op l r => do
    let (lhsCode, lhs) ← lowerValue f l
    let (rhsCode, rhs) ← lowerValue f r
    let dst ← allocTemp
    return (lhsCode ++ rhsCode ++ [.binary op dst lhs rhs], dst)

/-- Code for an assignment. -/
def lowerAssign (f : Frame) (dst : Place) (value : Value) : Lower Fragment := do
  let (code, src) ← lowerValue f value
  match dst with
  | .lane a lane => return code ++ [.store (← f.slotOf a lane) lane src]
  | .var i => return code ++ [.move (← f.registerOfVar i) src]

/-- Code that makes one argument available, and where the callee finds it.  An
array must have every lane that the callee can address; a value is moved to a
register of its own. -/
def lowerArg (f : Frame) (callee : Routine) (index : Nat) (kind : ParamKind) (arg : Arg) :
    Lower (Fragment × Binding) :=
  match kind, arg with
  | .vec4Ptr, .array a | .scalarPtr, .array a =>
    return ([], .slot (← f.slotOf a (kind.lanes - 1)))
  | .scalar, .value v => do
    let (code, temp) ← lowerValue f v
    let register ← allocRegister
    return (code ++ [.move register temp], .register register)
  | _, _ => throw (.argumentKind f.routine.name callee.name index)

/-- Code for the arguments from number `index` on. -/
def lowerArgs (f : Frame) (callee : Routine) :
    (index : Nat) → List (ParamKind × Arg) → Lower (Fragment × List Binding)
  | _, [] => return ([], [])
  | index, (kind, arg) :: rest => do
    let (code, binding) ← lowerArg f callee index kind arg
    let (restCode, bindings) ← lowerArgs f callee (index + 1) rest
    return (code ++ restCode, binding :: bindings)

/-- How a callee's body is expanded; absent once the nesting is used up. -/
abbrev Expander : Type := Option (Routine → List Binding → Op Target → Lower PlacedCode)

/-- Placed code as part of its caller. -/
def embed (code : PlacedCode) : Fragment := code.map (Op.mapTargets .within)

/-- Code for a call: the arguments, then the callee's code, which leaves by its
exit. -/
def lowerCall (m : Module) (expand : Expander) (f : Frame) (id : Nat) (args : List Arg) :
    Lower Fragment := do
  let some callee := m.routine? id | throw (.unknownCallee f.routine.name id)
  let before ← get
  let some expandBody := if id ∈ before.path then none else expand
    | throw (.nestedTooDeep f.routine.name callee.name)
  if callee.params.length ≠ args.length then
    throw (.argumentCount f.routine.name callee.name callee.params.length args.length)
  let (argCode, bindings) ← lowerArgs f callee 0 (callee.params.zip args)
  modify fun s => { s with path := id :: s.path }
  let body ← expandBody callee bindings (.jump .exit)
  modify fun s => { s with path := before.path, registerTop := before.registerTop }
  return argCode ++ embed body

/-- Code for a statement. -/
def lowerStmt (m : Module) (expand : Expander) (f : Frame) : Stmt → Lower Fragment
  | .assign dst value => lowerAssign f dst value
  | .call id args => lowerCall m expand f id args

/-- Code for the end of a block. -/
def lowerTerminator (f : Frame) : Terminator → Lower Fragment
  | .ret => return [f.onReturn]
  | .jump b => return [.jump (← f.blockTarget b)]
  | .branch op l r t e => do
    let (lhsCode, lhs) ← lowerValue f l
    let (rhsCode, rhs) ← lowerValue f r
    let onTrue ← f.blockTarget t
    let onFalse ← f.blockTarget e
    return lhsCode ++ rhsCode ++ [.branch op lhs rhs onTrue onFalse]

/-- Code for statements in order, each with fresh temporaries. -/
def lowerStmts (m : Module) (expand : Expander) (f : Frame) : List Stmt → Lower Fragment
  | [] => return []
  | stmt :: rest => do
    freeTemps
    let code ← lowerStmt m expand f stmt
    let restCode ← lowerStmts m expand f rest
    return code ++ restCode

/-- Code for one block. -/
def lowerBlock (m : Module) (expand : Expander) (f : Frame) (index : Nat) (b : Block) :
    Lower Fragment := do
  let code ← lowerStmts m expand f b.stmts
  freeTemps
  let some terminator := b.terminator | throw (.unterminated f.routine.name index)
  let endCode ← lowerTerminator f terminator
  return code ++ endCode

/-- Code for the blocks from number `index` on. -/
def lowerBlocks (m : Module) (expand : Expander) (f : Frame) :
    (index : Nat) → List Block → Lower (List Fragment)
  | _, [] => return []
  | index, b :: rest => do
    let code ← lowerBlock m expand f index b
    let restCode ← lowerBlocks m expand f (index + 1) rest
    return code :: restCode

/-! ## Placement -/

/-- Where each of the blocks starts when they lie one behind the other. -/
def blockStarts : (start : Nat) → List Fragment → List Nat
  | _, [] => []
  | start, b :: rest => start :: blockStarts (start + b.length) rest

/-- The displacement from position `source` to a target, given the starts of
the blocks and the length of the code. -/
def Target.displacement (starts : List Nat) (length source : Nat) : Target → Int
  | .within d => d
  | .block i => (starts[i]?.getD length : Int) - source
  | .exit => (length : Int) - source

/-- Puts blocks one behind the other. -/
def place (blocks : List Fragment) : PlacedCode :=
  let code := blocks.flatten
  let starts := blockStarts 0 blocks
  let length := code.length
  code.mapIdx fun source => Op.mapTargets (Target.displacement starts length source)

/-! ## Routines -/

/-- Code of a routine whose parameters are bound, given how callees are
expanded.  Its own storage is free again afterwards. -/
def lowerRoutine (m : Module) (expand : Expander) (r : Routine) (params : List Binding)
    (onReturn : Op Target) : Lower PlacedCode := do
  let before ← get
  let temps ← allocMany allocSlot r.temps
  let vars ← allocMany allocRegister r.vars
  let blocks ← lowerBlocks m expand ⟨r, params, temps, vars, onReturn⟩ 0 r.blocks
  modify fun s => { s with
    registerTop := before.registerTop
    tempTop := before.registerTop
    slotTop := before.slotTop }
  return place blocks

/-- Expansion of a routine in which calls may nest `depth` deep. -/
def expandRoutine (m : Module) : (depth : Nat) → Routine → List Binding → Op Target →
    Lower PlacedCode
  | 0 => lowerRoutine m none
  | depth + 1 => lowerRoutine m (some (expandRoutine m depth))

/-! ## Programs -/

/-- The absolute position of a jump's target, which must lie ahead of the jump
and inside the code. -/
def resolveTarget (length source : Nat) (displacement : Int) : Except CompileFault Nat :=
  let target := ((source : Int) + displacement).toNat
  if target ≤ source then .error (.backwardJump source target)
  else if length ≤ target then .error (.jumpPastEnd source)
  else .ok target

/-- Resolves the operations from position `source` on. -/
def resolveFrom (length : Nat) : (source : Nat) → PlacedCode → Except CompileFault (List (Op Nat))
  | _, [] => .ok []
  | source, op :: rest => do
    let resolved ← op.traverseTargets (resolveTarget length source)
    let restResolved ← resolveFrom length (source + 1) rest
    return resolved :: restResolved

/-- Finished code: every jump resolved, a return at the end. -/
def resolve (code : PlacedCode) : Except CompileFault (List (Op Nat)) := do
  let resolved ← resolveFrom code.length 0 code
  if resolved.getLast?.any Op.isRet then return resolved else throw .noFinalReturn

/-- Binds the entry's parameters and expands its body. -/
def lowerEntry (m : Module) (id : Nat) (entry : Routine) : Lower (List Binding × PlacedCode) := do
  let params ← entry.params.mapM allocParam
  modify fun s => { s with path := [id] }
  let code ← expandRoutine m (maxPath - 1) entry params .ret
  return (params, code)

/-- The program of a module's entry, or why there is none. -/
def lower (m : Module) : Except CompileFault Program := do
  let some id := m.entry | throw .noEntry
  let some entry := m.routine? id | throw (.missingEntry id)
  let ((params, code), storage) ← (lowerEntry m id entry).run .empty
  let resolved ← resolve code
  return {
    code := resolved.toArray
    params := entry.params.zip params
    registers := storage.registerPeak
    slots := storage.slotPeak }

end PixelPipeline.Ir
