import PixelPipeline.Binary32.Basic
import PixelPipeline.Text.Named

/-!
# Blend programs in block form

A module is a list of routines, one of them the entry.  A routine owns scalar
variables and four-lane temporary arrays, and receives arrays by reference and
scalars by value.  Its body is a list of blocks, each a list of statements that
ends in one terminator; values are expression trees without effects.  Choices
are branches between blocks and never operators on values, so a program makes
exactly the comparisons that were written.
-/

namespace PixelPipeline.Ir

/-- How a parameter is passed. -/
inductive ParamKind where
  /-- A reference to four floats. -/
  | vec4Ptr
  /-- A reference to one float: only lane 0 is addressable. -/
  | scalarPtr
  /-- A float by value. -/
  | scalar
  deriving DecidableEq, Repr

namespace ParamKind

/-- How many lanes can be addressed through the parameter. -/
def lanes : ParamKind → Nat
  | .vec4Ptr => 4
  | .scalarPtr => 1
  | .scalar => 0

/-- The written name of the kind. -/
def name : ParamKind → String
  | .vec4Ptr => "Vec4Ptr"
  | .scalarPtr => "ScalarPtr"
  | .scalar => "Scalar"

/-- A list of kinds in brackets. -/
def listText (kinds : List ParamKind) : String :=
  "[" ++ ", ".intercalate (kinds.map name) ++ "]"

instance : Named ParamKind := ⟨[.vec4Ptr, .scalarPtr, .scalar], name⟩

end ParamKind

/-- An array of floats that a routine can name. -/
inductive ArrayRef where
  /-- The array behind a reference parameter. -/
  | param (index : Nat)
  /-- A temporary array of the routine. -/
  | temp (index : Nat)
  deriving DecidableEq, Repr

namespace ArrayRef

/-- The written form of an array. -/
def text : ArrayRef → String
  | .param i => s!"p{i}"
  | .temp i => s!"tmp{i}"

end ArrayRef

/-- The arithmetic of values. -/
inductive BinOp where
  | add
  | sub
  | mul
  deriving DecidableEq, Repr

namespace BinOp

/-- One rounded operation. -/
def eval : BinOp → Binary32 → Binary32 → Binary32
  | .add, x, y => x + y
  | .sub, x, y => x - y
  | .mul, x, y => x * y

/-- The operator's sign. -/
def symbol : BinOp → String
  | .add => "+"
  | .sub => "-"
  | .mul => "*"

end BinOp

/-- The comparisons a branch can make. -/
inductive CmpOp where
  | le
  | ge
  deriving DecidableEq, Repr

namespace CmpOp

/-- The comparison, false when an operand is NaN. -/
def eval : CmpOp → Binary32 → Binary32 → Bool
  | .le, x, y => Binary32.le x y
  | .ge, x, y => Binary32.le y x

/-- The comparison's sign. -/
def symbol : CmpOp → String
  | .le => "<="
  | .ge => ">="

instance : Named CmpOp := ⟨[.le, .ge], symbol⟩

end CmpOp

/-- A scalar expression. -/
inductive Value where
  | const (value : Binary32)
  | load (array : ArrayRef) (lane : Nat)
  /-- A parameter passed by value. -/
  | param (index : Nat)
  | var (index : Nat)
  | binary (op : BinOp) (lhs rhs : Value)

/-- The target of an assignment. -/
inductive Place where
  | lane (array : ArrayRef) (lane : Nat)
  | var (index : Nat)
  deriving DecidableEq, Repr

/-- An argument of a call. -/
inductive Arg where
  | array (array : ArrayRef)
  | value (value : Value)

/-- A statement. -/
inductive Stmt where
  | assign (dst : Place) (value : Value)
  | call (routine : Nat) (args : List Arg)

/-- How a block ends. -/
inductive Terminator where
  | ret
  | jump (block : Nat)
  | branch (op : CmpOp) (lhs rhs : Value) (thenBlock elseBlock : Nat)

/-- Statements and their end; the end is missing while a block is open. -/
structure Block where
  stmts : List Stmt
  terminator : Option Terminator

/-- A block with nothing in it yet. -/
instance : Inhabited Block := ⟨⟨[], none⟩⟩

/-- A routine: what it is called, what it receives, what it owns, what it
does. -/
structure Routine where
  name : String
  params : List ParamKind
  vars : Nat
  temps : Nat
  blocks : List Block

/-- Routines by number, one of which may be the entry. -/
structure Module where
  routines : List Routine
  entry : Option Nat

/-- The module without routines. -/
instance : Inhabited Module := ⟨⟨[], none⟩⟩

/-- The routine with this number. -/
def Module.routine? (m : Module) (id : Nat) : Option Routine := m.routines[id]?

end PixelPipeline.Ir
