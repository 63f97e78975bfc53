import PixelPipeline.Decimal.Layout
import PixelPipeline.Ir.Basic
import PixelPipeline.Text.Lines

/-!
# Listings of blend programs

A listing shows every routine with its parameter kinds and every block with its
statements, one per row.  Constants are written with the fewest digits that
read back.  A row is one line of the text unless the name of a routine in it
holds line breaks.
-/

namespace PixelPipeline.Ir

/-- Constants are written positionally from `10 ^ -4` up to `10 ^ 16` and keep
at least one digit after the point. -/
def constantLayout : Decimal.FloatLayout := ⟨-4, 16, "NaN", "inf"⟩

/-- The lane of an array. -/
def laneText (array : ArrayRef) (lane : Nat) : String := s!"{array.text}[{lane}]"

/-- An expression, every operation in parentheses. -/
def Value.text : Value → String
  | .const v => constantLayout.write v
  | .load a lane => laneText a lane
  | .param i => s!"p{i}"
  | .var i => s!"l{i}"
  | .binary op l r => "(" ++ l.text ++ " " ++ op.symbol ++ " " ++ r.text ++ ")"

/-- The target of an assignment. -/
def Place.text : Place → String
  | .lane a i => laneText a i
  | .var i => s!"l{i}"

/-- An argument of a call. -/
def Arg.text : Arg → String
  | .array a => a.text
  | .value v => v.text

/-- A statement; calls name their routine if the module has it. -/
def Stmt.text (m : Module) : Stmt → String
  | .assign dst value => dst.text ++ " = " ++ value.text ++ ";"
  | .call id args =>
    let name := (m.routine? id).elim "<unknown>" Routine.name
    name ++ "(" ++ ", ".intercalate (args.map Arg.text) ++ ");"

/-- The end of a block. -/
def Terminator.text : Option Terminator → String
  | none => "<unterminated>"
  | some .ret => "return;"
  | some (.jump b) => s!"goto bb{b};"
  | some (.branch op l r t e) =>
    "if " ++ l.text ++ " " ++ op.symbol ++ " " ++ r.text ++ s!" goto bb{t} else goto bb{e};"

/-- The rows of a block. -/
def Block.rows (m : Module) (index : Nat) (b : Block) : List String :=
  s!"  bb{index}:" ::
    (b.stmts.map (Stmt.text m) ++ [Terminator.text b.terminator]).map ("    " ++ ·)

/-- The rows of a routine. -/
def Routine.rows (m : Module) (id : Nat) (r : Routine) : List String :=
  let mark := if m.entry = some id then " (entry)" else ""
  ("fn " ++ r.name ++ mark ++ "(" ++ ParamKind.listText r.params ++ ") \x7b") ::
    (r.blocks.mapIdx (Block.rows m)).flatten ++ ["\x7d"]

/-- The rows of the whole listing. -/
def Module.rows (m : Module) : List String :=
  (m.routines.mapIdx (Routine.rows m)).flatten

/-- The listing as one text, every row ended. -/
def Module.text (m : Module) : String :=
  String.ofList (Text.ofLines (m.rows.map String.toList))

/-- The lines of the listing. -/
def Module.listing (m : Module) : List String :=
  (Text.lines m.text.toList).map String.ofList

end PixelPipeline.Ir
