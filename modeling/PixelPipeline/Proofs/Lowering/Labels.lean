import PixelPipeline.Ir.Lowering

/-!
# Lowering with labels

Lowering in one pass over a growing buffer, as an assembler does it: operations are appended as
they come, jumps name labels, and a label is bound to the offset that the code has reached.  An
expanded routine creates one label for each of its blocks; a call creates one for what follows
it, which is where the callee returns to.  Only when all code is there are the labels looked up
(`Assembly.resolve`).

The storage is that of `Lower`, whose allocations are used as they are (`Labelled.ofLower`).
`Labelled.routine` and `Labelled.call` restore it one field at a time, each where it is done with.

Labels and offsets are natural numbers.  An assembler that keeps both in words of 32 bits, without
a check, agrees with this one while it has fewer than 2^32 labels and 2^32 operations.
-/

namespace PixelPipeline.Ir

open Machine

/-- Code under construction, with labels for targets. -/
structure Assembly where
  storage : Storage
  code : List (Op Nat)
  /-- The offsets that the labels are bound to, if they are bound. -/
  labels : List (Option Nat)

/-- Emission of code in place. -/
abbrev Labelled : Type → Type := StateT Assembly (Except CompileFault)

/-- The labels that an expanded routine can jump to. -/
structure Exits where
  /-- One for each block. -/
  blocks : List Nat
  /-- Where to go on after the routine; the entry returns instead. -/
  continuation : Option Nat

/-- The end of a block whose label is known. -/
def Exits.block (x : Exits) (f : Frame) (i : Nat) : Except CompileFault Nat :=
  match x.blocks[i]? with
  | some label => .ok label
  | none => .error (.missingBlock f.routine.name i)

/-- How a routine returns, in terms of the routine. -/
def returnBy : Option Nat → Op Target
  | some _ => .jump .exit
  | none => .ret

namespace Labelled

/-- Hands out storage, or refuses to. -/
def ofLower {α : Type} (x : Lower α) : Labelled α := fun a => do
  let (value, storage) ← x a.storage
  return (value, { a with storage })

def modifyStorage (g : Storage → Storage) : Labelled Unit :=
  modify fun a => { a with storage := g a.storage }

def emit (op : Op Nat) : Labelled Unit := modify fun a => { a with code := a.code ++ [op] }

/-- A label that is not bound yet. -/
def newLabel : Labelled Nat := do
  let a ← get
  set { a with labels := a.labels ++ [none] }
  return a.labels.length

/-- Binds a label to the end of the code. -/
def bindLabel (label : Nat) : Labelled Unit :=
  modify fun a => { a with labels := a.labels.set label (some a.code.length) }

section

variable {α : Type} {k : Unit → Labelled α} {a : Assembly}

/-- What follows a modification starts from the modified storage. -/
@[simp] theorem modifyStorage_bind (g : Storage → Storage) :
    (modifyStorage g >>= k) a = k () { a with storage := g a.storage } := rfl

/-- What follows gets the label, which is not bound yet. -/
@[simp] theorem newLabel_bind (k : Nat → Labelled α) :
    (newLabel >>= k) a = k a.labels.length { a with labels := a.labels ++ [none] } := rfl

/-- What follows finds the label bound to where the code ends. -/
@[simp] theorem bindLabel_bind (label : Nat) : (bindLabel label >>= k) a
    = k () { a with labels := a.labels.set label (some a.code.length) } := rfl

end

/-- Labels in a row. -/
def newLabels : Nat → Labelled (List Nat)
  | 0 => return []
  | n + 1 => do
    let first ← newLabel
    let rest ← newLabels n
    return first :: rest

/-- What follows gets the labels, none of which is bound yet. -/
@[simp] theorem newLabels_bind {α : Type} {a : Assembly} (n : Nat) (k : List Nat → Labelled α) :
    (newLabels n >>= k) a = k (List.range' a.labels.length n)
      { a with labels := a.labels ++ List.replicate n none } := by
  induction n generalizing a k with
  | zero =>
      rw [List.replicate_zero, List.append_nil]
      rfl
  | succ n ih =>
      unfold newLabels
      rw [bind_assoc, newLabel_bind, bind_assoc, ih, pure_bind, List.length_append,
        List.length_singleton, List.range'_succ, List.replicate_succ, List.append_assoc]
      rfl

/-- The register that holds a value. -/
def value (f : Frame) : Value → Labelled Nat
  | .const v => do
    let dst ← ofLower allocTemp
    emit (.const dst v)
    return dst
  | .load a lane => do
    let slot ← f.slotOf a lane
    let dst ← ofLower allocTemp
    emit (.load dst slot lane)
    return dst
  | .param i => f.registerOfParam i
  | .var i => f.registerOfVar i
  | .binary op l r => do
    let lhs ← value f l
    let rhs ← value f r
    let dst ← ofLower allocTemp
    emit (.binary op dst lhs rhs)
    return dst

def assign (f : Frame) (dst : Place) (v : Value) : Labelled Unit := do
  let src ← value f v
  match dst with
  | .lane a lane =>
    let slot ← f.slotOf a lane
    emit (.store slot lane src)
  | .var i =>
    let dst ← f.registerOfVar i
    emit (.move dst src)

def argument (f : Frame) (callee : Routine) (index : Nat) (kind : ParamKind) (arg : Arg) :
    Labelled Binding :=
  match kind, arg with
  | .vec4Ptr, .array a | .scalarPtr, .array a => do
    let slot ← f.slotOf a (kind.lanes - 1)
    return .slot slot
  | .scalar, .value v => do
    let temp ← value f v
    let register ← ofLower allocRegister
    emit (.move register temp)
    return .register register
  | _, _ => throw (.argumentKind f.routine.name callee.name index)

/-- The arguments from number `index` on. -/
def arguments (f : Frame) (callee : Routine) :
    (index : Nat) → List (ParamKind × Arg) → Labelled (List Binding)
  | _, [] => return []
  | index, (kind, arg) :: rest => do
    let binding ← argument f callee index kind arg
    let bindings ← arguments f callee (index + 1) rest
    return binding :: bindings

end Labelled

/-- How a callee's body is expanded, given where to go on; absent once the nesting is used up. -/
abbrev LabelledExpander : Type := Option (Routine → List Binding → Option Nat → Labelled Unit)

namespace Labelled

/-- The arguments and the callee's code, which leaves by a label that is bound behind it. -/
def call (m : Module) (expand : LabelledExpander) (f : Frame) (id : Nat) (args : List Arg) :
    Labelled Unit := do
  let some callee := m.routine? id | throw (.unknownCallee f.routine.name id)
  let before ← get
  let some expandBody := if id ∈ before.storage.path then none else expand
    | throw (.nestedTooDeep f.routine.name callee.name)
  if callee.params.length ≠ args.length then
    throw (.argumentCount f.routine.name callee.name callee.params.length args.length)
  let bindings ← arguments f callee 0 (callee.params.zip args)
  let continuation ← newLabel
  modifyStorage fun s => { s with path := id :: s.path }
  expandBody callee bindings (some continuation)
  modifyStorage fun s => { s with path := s.path.tail }
  bindLabel continuation
  modifyStorage fun s => { s with registerTop := before.storage.registerTop }

def stmt (m : Module) (expand : LabelledExpander) (f : Frame) : Stmt → Labelled Unit
  | .assign dst v => assign f dst v
  | .call id args => call m expand f id args

def terminator (f : Frame) (x : Exits) : Terminator → Labelled Unit
  | .ret => emit (match x.continuation with
    | some label => .jump label
    | none => .ret)
  | .jump b => do
    let label ← x.block f b
    emit (.jump label)
  | .branch op l r t e => do
    let lhs ← value f l
    let rhs ← value f r
    let onTrue ← x.block f t
    let onFalse ← x.block f e
    emit (.branch op lhs rhs onTrue onFalse)

/-- Statements in order, each with fresh temporaries. -/
def stmts (m : Module) (expand : LabelledExpander) (f : Frame) : List Stmt → Labelled Unit
  | [] => return ()
  | s :: rest => do
    ofLower freeTemps
    stmt m expand f s
    stmts m expand f rest

def block (m : Module) (expand : LabelledExpander) (f : Frame) (x : Exits) (index : Nat)
    (b : Block) : Labelled Unit := do
  stmts m expand f b.stmts
  ofLower freeTemps
  let some t := b.terminator | throw (.unterminated f.routine.name index)
  terminator f x t

/-- The blocks from number `index` on, each with its label. -/
def blocks (m : Module) (expand : LabelledExpander) (f : Frame) (x : Exits) :
    (index : Nat) → List (Nat × Block) → Labelled Unit
  | _, [] => return ()
  | index, (label, b) :: rest => do
    bindLabel label
    block m expand f x index b
    blocks m expand f x (index + 1) rest

/-- Code of a routine whose parameters are bound.  Its own storage is free again afterwards. -/
def routine (m : Module) (expand : LabelledExpander) (r : Routine) (params : List Binding)
    (continuation : Option Nat) : Labelled Unit := do
  let before ← get
  let temps ← ofLower (allocMany allocSlot r.temps)
  let vars ← ofLower (allocMany allocRegister r.vars)
  let labels ← newLabels r.blocks.length
  blocks m expand ⟨r, params, temps, vars, returnBy continuation⟩ ⟨labels, continuation⟩ 0
    (labels.zip r.blocks)
  modifyStorage fun s => { s with
    registerTop := before.storage.registerTop
    tempTop := before.storage.registerTop
    slotTop := before.storage.slotTop }

/-- Expansion of a routine in which calls may nest `depth` deep. -/
def expandRoutine (m : Module) : (depth : Nat) → Routine → List Binding → Option Nat →
    Labelled Unit
  | 0 => routine m none
  | depth + 1 => routine m (some (expandRoutine m depth))

end Labelled

namespace Assembly

/-- The offset of a label, which must lie ahead of the jump and inside the code. -/
def target (labels : List (Option Nat)) (length source label : Nat) : Except CompileFault Nat :=
  match labels[label]? with
  | some (some target) =>
    if target ≤ source then .error (.backwardJump source target)
    else if length ≤ target then .error (.jumpPastEnd source)
    else .ok target
  | _ => .error (.refused s!"label {label} was never bound")

/-- Looks up the labels of the operations from position `source` on. -/
def resolveFrom (labels : List (Option Nat)) (length : Nat) :
    (source : Nat) → List (Op Nat) → Except CompileFault (List (Op Nat))
  | _, [] => .ok []
  | source, op :: rest => do
    let resolved ← op.traverseTargets (target labels length source)
    let restResolved ← resolveFrom labels length (source + 1) rest
    return resolved :: restResolved

/-- Finished code: every label looked up, a return at the end. -/
def resolve (a : Assembly) : Except CompileFault (List (Op Nat)) := do
  let resolved ← resolveFrom a.labels a.code.length 0 a.code
  if resolved.getLast?.any Op.isRet then return resolved else throw .noFinalReturn

end Assembly

namespace Labelled

/-- Binds the entry's parameters and expands its body. -/
def entry (m : Module) (id : Nat) (r : Routine) : Labelled (List Binding) := do
  let params ← ofLower (r.params.mapM allocParam)
  modifyStorage fun s => { s with path := [id] }
  expandRoutine m (maxPath - 1) r params none
  return params

/-- The program of a module's entry, assembled in one pass. -/
def lower (m : Module) : Except CompileFault Program := do
  let some id := m.entry | throw .noEntry
  let some r := m.routine? id | throw (.missingEntry id)
  let (params, a) ← (entry m id r).run ⟨.empty, [], []⟩
  let resolved ← a.resolve
  return {
    code := resolved.toArray
    params := r.params.zip params
    registers := a.storage.registerPeak
    slots := a.storage.slotPeak }

end Labelled

end PixelPipeline.Ir
