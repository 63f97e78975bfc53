import PixelPipeline.Binary32.Basic
import PixelPipeline.Text.Named

/-!
# Comparisons and stencil updates

A test compares two values that need not be comparable: a NaN depth has no
order with anything.  `CompareOp.accepts` therefore takes the outcome of a
partial comparison, and only the operators that hold of incomparable values,
`notEqual` and `always`, accept its absence.
-/

namespace PixelPipeline

/-- Comparison of the depth and stencil tests. -/
inductive CompareOp where
  | never
  | less
  | lessEqual
  | equal
  | greaterEqual
  | greater
  | notEqual
  | always
  deriving DecidableEq, Repr, Inhabited

instance : Named CompareOp where
  all := [.never, .less, .lessEqual, .equal, .greaterEqual, .greater, .notEqual, .always]
  name
    | .never => "Never"
    | .less => "Less"
    | .lessEqual => "LessEqual"
    | .equal => "Equal"
    | .greaterEqual => "GreaterEqual"
    | .greater => "Greater"
    | .notEqual => "NotEqual"
    | .always => "Always"

/-- The order of two floats, absent when one is NaN. -/
def Binary32.compare? (x y : Binary32) : Option Ordering :=
  if lt x y then some .lt
  else if lt y x then some .gt
  else if eq x y then some .eq
  else none

namespace CompareOp

/-- Whether the operator holds of a pair with this comparison. -/
def accepts : CompareOp → Option Ordering → Bool
  | .never, _ => false
  | .less, c => c == some .lt
  | .lessEqual, c => c == some .lt || c == some .eq
  | .equal, c => c == some .eq
  | .greaterEqual, c => c == some .gt || c == some .eq
  | .greater, c => c == some .gt
  | .notEqual, c => c != some .eq
  | .always, _ => true

/-- The operator on depths. -/
def testDepth (op : CompareOp) (left right : Binary32) : Bool :=
  op.accepts (Binary32.compare? left right)

/-- The operator on stencil values. -/
def testStencil (op : CompareOp) (left right : UInt8) : Bool :=
  op.accepts (some (compare left.toNat right.toNat))

end CompareOp

/-- Update of a stored stencil value. -/
inductive StencilOp where
  | keep
  | zero
  | replace
  | incrementClamp
  | incrementWrap
  | decrementClamp
  | decrementWrap
  | invert
  deriving DecidableEq, Repr, Inhabited

instance : Named StencilOp where
  all := [.keep, .zero, .replace, .incrementClamp, .incrementWrap, .decrementClamp,
    .decrementWrap, .invert]
  name
    | .keep => "Keep"
    | .zero => "Zero"
    | .replace => "Replace"
    | .incrementClamp => "IncrementClamp"
    | .incrementWrap => "IncrementWrap"
    | .decrementClamp => "DecrementClamp"
    | .decrementWrap => "DecrementWrap"
    | .invert => "Invert"

namespace StencilOp

/-- The new value before the write mask is applied. -/
def update (op : StencilOp) (value reference : UInt8) : UInt8 :=
  match op with
  | .keep => value
  | .zero => 0
  | .replace => reference
  | .incrementClamp => if value = 255 then 255 else value + 1
  | .incrementWrap => value + 1
  | .decrementClamp => if value = 0 then 0 else value - 1
  | .decrementWrap => value - 1
  | .invert => ~~~value

/-- Bits outside the write mask come from the old value, bits inside it from
the update. -/
def apply (op : StencilOp) (value reference writeMask : UInt8) : UInt8 :=
  (value &&& ~~~writeMask) ||| (op.update value reference &&& writeMask)

end StencilOp

end PixelPipeline
