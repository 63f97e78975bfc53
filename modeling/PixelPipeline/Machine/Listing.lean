import PixelPipeline.Machine.Program
import PixelPipeline.Text.Hex

/-!
# Programs as text

One text per operation.  Registers are written `r0`, `r1`, …, slots `s0`, `s1`,
…, lanes in brackets behind their slot, and jump targets as positions in the
code.  Constants are written as their bits, so that no two different constants
look alike.
-/

namespace PixelPipeline.Machine

open Ir

/-- The arithmetic of an operation. -/
def binaryText : BinOp → String
  | .add => "Add"
  | .sub => "Sub"
  | .mul => "Mul"

/-- The comparison of an operation. -/
def comparisonText : CmpOp → String
  | .le => "Le"
  | .ge => "Ge"

/-- An operation with absolute targets. -/
def Op.text : Op Nat → String
  | .const dst value => s!"r{dst} = const " ++ Hex.float value
  | .load dst slot lane => s!"r{dst} = s{slot}[{lane}]"
  | .store slot lane src => s!"s{slot}[{lane}] = r{src}"
  | .move dst src => s!"r{dst} = r{src}"
  | .binary op dst lhs rhs => s!"r{dst} = " ++ binaryText op ++ s!" r{lhs} r{rhs}"
  | .jump target => s!"jump {target}"
  | .branch op lhs rhs t e =>
    "if " ++ comparisonText op ++ s!" r{lhs} r{rhs} then {t} else {e}"
  | .ret => "return"

/-- A slot or register. -/
def Binding.text : Binding → String
  | .slot i => s!"s{i}"
  | .register i => s!"r{i}"

/-- The operations of a program in order. -/
def Program.listing (p : Program) : List String := p.code.toList.map Op.text

/-- The parameters of a program with the places where they live. -/
def Program.paramTexts (p : Program) : List String :=
  p.params.map fun param => param.1.name ++ " " ++ param.2.text

end PixelPipeline.Machine
