import PixelPipeline.Ir.Basic
import PixelPipeline.Color

/-!
# Running modules as they are written

A reference interpreter for modules, which knows nothing of registers, slots or
positions.  It executes blocks from block 0, evaluates expression trees over
the current state, and calls routines: arrays are passed by reference, so two
parameters may stand for one array, and scalars by value.  A return resumes
right after the call, and a routine without blocks returns at once.

Arrays live on a stack.  An activation pushes its temporary arrays and pops
them when it returns; neither they nor its variables hold anything until
something is assigned to them, and `Stuck.unassigned` is the answer of a run
that reads one of them before that.

A module may loop or recurse for ever, so the interpreter takes fuel.  One unit
is spent on every nested routine and one on every block entered by a jump.
-/

namespace PixelPipeline.Ir.Reference

/-- Why a run has no result. -/
inductive Stuck where
  /-- A variable or a lane of an array was read before it was assigned. -/
  | unassigned
  /-- Something was named that does not exist or is of another kind. -/
  | meaningless
  | outOfFuel
  deriving DecidableEq, Repr

/-- The arrays in use, by address: those below `size`. -/
structure Memory where
  lanes : Nat → Nat → Option Binary32
  size : Nat

namespace Memory

/-- No arrays. -/
def empty : Memory := ⟨fun _ _ => none, 0⟩

/-- One more array, with the given lanes. -/
def push (mem : Memory) (lanes : Nat → Option Binary32) : Memory :=
  ⟨fun address => if address = mem.size then lanes else mem.lanes address, mem.size + 1⟩

/-- `count` more arrays, in which nothing is assigned. -/
def extend (mem : Memory) (count : Nat) : Memory :=
  ⟨fun address => if mem.size ≤ address then fun _ => none else mem.lanes address,
    mem.size + count⟩

/-- Only the first `size` arrays. -/
def shrink (mem : Memory) (size : Nat) : Memory := { mem with size }

/-- Assigns to a lane. -/
def write (mem : Memory) (address lane : Nat) (value : Binary32) : Memory :=
  { mem with lanes := fun a l =>
      if a = address ∧ l = lane then some value else mem.lanes a l }

end Memory

/-- What a parameter stands for. -/
inductive Actual where
  /-- The array at an address. -/
  | array (address : Nat)
  | scalar (value : Binary32)
  deriving DecidableEq, Repr

/-- A routine at work: what its parameters stand for and where its temporary
arrays lie. -/
structure Activation where
  routine : Routine
  actuals : List Actual
  base : Nat

/-- What an activation changes. -/
structure Store where
  vars : Nat → Option Binary32
  memory : Memory

/-- Assigns to a variable. -/
def Store.setVar (s : Store) (index : Nat) (value : Binary32) : Store :=
  { s with vars := fun i => if i = index then some value else s.vars i }

/-- The value that was assigned. -/
def assigned : Option Binary32 → Except Stuck Binary32
  | some value => .ok value
  | none => .error .unassigned

/-! ## Names and values -/

namespace Activation

/-- The address of an array. -/
def address (a : Activation) : ArrayRef → Except Stuck Nat
  | .param i =>
    match a.actuals[i]? with
    | some (.array address) => .ok address
    | _ => .error .meaningless
  | .temp i => if i < a.routine.temps then .ok (a.base + i) else .error .meaningless

/-- The value of a parameter passed by value. -/
def scalar (a : Activation) (i : Nat) : Except Stuck Binary32 :=
  match a.actuals[i]? with
  | some (.scalar value) => .ok value
  | _ => .error .meaningless

/-- The value of a variable. -/
def var (a : Activation) (s : Store) (i : Nat) : Except Stuck Binary32 :=
  if i < a.routine.vars then assigned (s.vars i) else .error .meaningless

/-- The value of an expression. -/
def eval (a : Activation) (s : Store) : Value → Except Stuck Binary32
  | .const value => .ok value
  | .load array lane => do
    let address ← a.address array
    assigned (s.memory.lanes address lane)
  | .param i => a.scalar i
  | .var i => a.var s i
  | .binary op lhs rhs => do
    let x ← a.eval s lhs
    let y ← a.eval s rhs
    return op.eval x y

/-- The effect of an assignment. -/
def assign (a : Activation) (s : Store) (value : Binary32) : Place → Except Stuck Store
  | .lane array lane => do
    let address ← a.address array
    return { s with memory := s.memory.write address lane value }
  | .var i => if i < a.routine.vars then .ok (s.setVar i value) else .error .meaningless

/-- What an argument hands to the callee. -/
def pass (a : Activation) (s : Store) : Arg → Except Stuck Actual
  | .array array => do
    let address ← a.address array
    return .array address
  | .value value => do
    let v ← a.eval s value
    return .scalar v

/-- The arguments of a call, in order. -/
def passAll (a : Activation) (s : Store) : List Arg → Except Stuck (List Actual)
  | [] => .ok []
  | arg :: rest => do
    let actual ← a.pass s arg
    let actuals ← a.passAll s rest
    return actual :: actuals

end Activation

/-! ## Statements, blocks and routines -/

/-- How a routine with given parameters changes the memory. -/
abbrev Invoke : Type := Routine → List Actual → Memory → Except Stuck Memory

/-- The effect of a statement. -/
def exec (m : Module) (invoke : Invoke) (a : Activation) (s : Store) : Stmt → Except Stuck Store
  | .assign dst value => do
    let v ← a.eval s value
    a.assign s v dst
  | .call id args =>
    match m.routine? id with
    | none => .error .meaningless
    | some callee => do
      let actuals ← a.passAll s args
      let memory ← invoke callee actuals s.memory
      return { s with memory }

/-- The effect of statements in order. -/
def execAll (m : Module) (invoke : Invoke) (a : Activation) (s : Store) :
    List Stmt → Except Stuck Store
  | [] => .ok s
  | stmt :: rest => do
    let s ← exec m invoke a s stmt
    execAll m invoke a s rest

/-- Where a block leads: to another block of the routine, or back. -/
def leave (a : Activation) (s : Store) : Terminator → Except Stuck (Option Nat)
  | .ret => .ok none
  | .jump block => .ok (some block)
  | .branch op lhs rhs thenBlock elseBlock => do
    let x ← a.eval s lhs
    let y ← a.eval s rhs
    return some (if op.eval x y then thenBlock else elseBlock)

/-- The memory when the activation returns, starting at a block. -/
def execFrom (m : Module) (invoke : Invoke) (a : Activation) :
    (fuel : Nat) → (block : Nat) → Store → Except Stuck Memory
  | 0, _, _ => .error .outOfFuel
  | fuel + 1, block, s =>
    match a.routine.blocks[block]? with
    | some ⟨stmts, some terminator⟩ => do
      let s ← execAll m invoke a s stmts
      match ← leave a s terminator with
      | none => return s.memory
      | some next => execFrom m invoke a fuel next s
    | _ => .error .meaningless

/-- The memory after a routine was called. -/
def invoke (m : Module) : (fuel : Nat) → Invoke
  | 0, _, _, _ => .error .outOfFuel
  | fuel + 1, r, actuals, mem =>
    if r.blocks = [] then .ok mem
    else do
      let final ← execFrom m (invoke m fuel) ⟨r, actuals, mem.size⟩ fuel 0
        ⟨fun _ => none, mem.extend r.temps⟩
      return final.shrink mem.size

/-! ## Whole modules -/

/-- What a parameter of the entry holds before the run. -/
inductive Input where
  /-- Four floats by reference. -/
  | array (color : Color)
  /-- One float by reference. -/
  | cell (value : Binary32)
  /-- A float by value. -/
  | scalar (value : Binary32)

namespace Input

/-- How the parameter is passed. -/
def kind : Input → ParamKind
  | .array _ => .vec4Ptr
  | .cell _ => .scalarPtr
  | .scalar _ => .scalar

/-- The lanes that the parameter's array starts with. -/
def lanes : Input → Nat → Option Binary32
  | .array color, lane => color[lane]?
  | .cell value, lane => if lane = 0 then some value else none
  | .scalar _, _ => none

end Input

/-- Gives every reference parameter of the entry an array of its own. -/
def bind : List Input → Memory → List Actual × Memory
  | [], mem => ([], mem)
  | .scalar value :: rest, mem =>
    let (actuals, final) := bind rest mem
    (.scalar value :: actuals, final)
  | input :: rest, mem =>
    let (actuals, final) := bind rest (mem.push input.lanes)
    (.array mem.size :: actuals, final)

/-- The memory after the entry of a module has run on its inputs. -/
def run (m : Module) (fuel : Nat) (inputs : List Input) : Except Stuck Memory :=
  match m.entry.bind m.routine? with
  | none => .error .meaningless
  | some entry =>
    let (actuals, mem) := bind inputs .empty
    invoke m fuel entry actuals mem

end PixelPipeline.Ir.Reference
