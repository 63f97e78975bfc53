import Mathlib.Data.List.Forall2
import PixelPipeline.Proofs.Lowering.Acceptance

/-!
# Acceptable modules

What a module must satisfy, said of the module alone.  Expanding the entry makes
a tree of routine instances, one below another for each call in any block of a
routine, reachable or not.  `Module.Instance` lists them with the routines on
the way from the entry and with what is in use when the body begins: a register
for each scalar parameter, a slot for each reference parameter of the entry, and
all that the routines on the way own.

An instance is acceptable if

* every name that stands in it is declared, with lanes and kinds that fit
  (`Value.Declared`, `Arg.Suits`);
* each call names a routine that is not on the way already, and at most
  `maxPath` routines are nested (`Stmt.Declared`);
* each block has an end, which leads to later blocks only
  (`Terminator.Declared`);
* its variables, its temporary arrays and the most demanding of its statements
  find room in the machine (`Stmt.demand`).
-/

namespace PixelPipeline.Ir

/-! ## Names -/

/-- How many lanes of an array a routine may address, if it has the array. -/
def Routine.lanes? (r : Routine) : ArrayRef → Option Nat
  | .param i =>
    match r.params[i]? with
    | some .vec4Ptr => some 4
    | some .scalarPtr => some 1
    | _ => none
  | .temp i => if i < r.temps then some 4 else none

/-- The routine has the array, and the array has the lane. -/
def Routine.Addresses (r : Routine) (a : ArrayRef) (lane : Nat) : Prop :=
  ∃ lanes, r.lanes? a = some lanes ∧ lane < lanes

/-- The block comes later than another. -/
def Routine.Later (r : Routine) (index next : Nat) : Prop :=
  index < next ∧ next < r.blocks.length

/-- Every name in a value is declared. -/
def Value.Declared (r : Routine) : Value → Prop
  | .const _ => True
  | .load a lane => r.Addresses a lane
  | .param i => r.params[i]? = some .scalar
  | .var i => i < r.vars
  | .binary _ lhs rhs => lhs.Declared r ∧ rhs.Declared r

/-- The target of an assignment is declared. -/
def Place.Declared (r : Routine) : Place → Prop
  | .lane a l => r.Addresses a l
  | .var i => i < r.vars

/-- The argument is of the kind of the parameter, and an array has at least the
lanes that the parameter has. -/
def Arg.Suits (r : Routine) (kind : ParamKind) : Arg → Prop
  | .array a => kind ≠ .scalar ∧ ∃ lanes, r.lanes? a = some lanes ∧ kind.lanes ≤ lanes
  | .value v => kind = .scalar ∧ v.Declared r

/-- Every name in a statement is declared.  A call names a routine that is not
on the way already, and there is room for one more on the way. -/
def Stmt.Declared (m : Module) (path : List Nat) (r : Routine) : Stmt → Prop
  | .assign dst v => dst.Declared r ∧ v.Declared r
  | .call id args => ∃ callee, m.routine? id = some callee ∧ id ∉ path ∧ path.length < maxPath ∧
    List.Forall₂ (Arg.Suits r) callee.params args

/-- Every name in the end of a block is declared, and it leads to later
blocks. -/
def Terminator.Declared (r : Routine) (index : Nat) : Terminator → Prop
  | .ret => True
  | .jump next => r.Later index next
  | .branch _ lhs rhs onTrue onFalse =>
    lhs.Declared r ∧ rhs.Declared r ∧ r.Later index onTrue ∧ r.Later index onFalse

/-! ## Demand -/

/-- The registers that an argument keeps until the call is over. -/
def Arg.registers : Arg → Nat
  | .array _ => 0
  | .value _ => 1

/-- The registers that making an argument available takes: the temporaries of
its value, and the register that the value is moved to when these are free
again. -/
def Arg.demand : Arg → Nat
  | .array _ => 0
  | .value v => max v.temps 1

/-- The registers that arguments take, each above those that the earlier ones
keep. -/
def Arg.demands : List Arg → Nat
  | [] => 0
  | arg :: rest => max arg.demand (arg.registers + Arg.demands rest)

/-- The registers that a statement takes apart from the body of a callee. -/
def Stmt.demand : Stmt → Nat
  | .assign _ v => v.temps
  | .call _ args => Arg.demands args

/-! ## Instances -/

/-- The parameters passed by value. -/
def Routine.scalars (r : Routine) : Nat := r.params.count .scalar

/-- The parameters passed by reference. -/
def Routine.references (r : Routine) : Nat := r.params.countP (· ≠ .scalar)

/-- The routines that the expansion of the entry comes to: with the numbers of
the routines under expansion, innermost first, and how many registers and slots
are in use when the body begins. -/
inductive Module.Instance (m : Module) :
    (path : List Nat) → Routine → (registers slots : Nat) → Prop
  | entry {id : Nat} {r : Routine} (hentry : m.entry = some id)
    (hroutine : m.routine? id = some r) :
      Instance m [id] r r.scalars r.references
  | call {path : List Nat} {r callee : Routine} {registers slots id : Nat} {b : Block}
      {args : List Arg} (caller : Instance m path r registers slots) (hblock : b ∈ r.blocks)
      (hcall : .call id args ∈ b.stmts) (hcallee : m.routine? id = some callee) :
      Instance m (id :: path) callee (registers + r.vars + callee.scalars) (slots + r.temps)

/-- A block can be lowered when `base` registers are in use. -/
structure Block.Acceptable (m : Module) (path : List Nat) (r : Routine) (base index : Nat)
    (b : Block) : Prop where
  stmts : ∀ stmt ∈ b.stmts, stmt.Declared m path r ∧ base + stmt.demand ≤ maxRegisters
  ends : ∃ terminator, b.terminator = some terminator ∧ terminator.Declared r index ∧
    base + terminator.temps ≤ maxRegisters

/-- An instance of a routine can be lowered, its callees apart. -/
structure Routine.Acceptable (m : Module) (path : List Nat) (r : Routine) (registers slots : Nat) :
    Prop where
  vars : registers + r.vars ≤ maxRegisters
  temps : slots + r.temps ≤ maxSlots
  blocks : ∀ (index : Nat) (b : Block), r.blocks[index]? = some b →
    b.Acceptable m path r (registers + r.vars) index

/-- The entry has a block, and every instance can be lowered. -/
structure Module.Acceptable (m : Module) : Prop where
  entry : ∃ id r, m.entry = some id ∧ m.routine? id = some r ∧ r.blocks ≠ []
  instances : ∀ path r registers slots, m.Instance path r registers slots →
    r.Acceptable m path registers slots

end PixelPipeline.Ir
