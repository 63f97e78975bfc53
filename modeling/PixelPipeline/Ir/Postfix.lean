import PixelPipeline.Ir.Basic
import PixelPipeline.Text.Blank
import PixelPipeline.Text.Hex

/-!
# Reading places and values

Arrays, lanes and variables are read as listings write them: `p0[2]`,
`tmp1[0]`, `l3`.  A value is read in postfix form, its words separated by
blanks: a constant is `#` and its bits, and an operator takes the two values
before it.  So every value has one postfix form, and no parentheses are needed.
-/

namespace PixelPipeline.Ir

/-- The number that a non-empty run of decimal digits writes. -/
def index? (digits : List Char) : Option Nat :=
  if digits.isEmpty ∨ !digits.all Char.isDigit then none
  else some (digits.foldl (fun n c => 10 * n + (c.toNat - '0'.toNat)) 0)

/-- Reads an array. -/
def ArrayRef.ofChars? : List Char → Option ArrayRef
  | 'p' :: digits => (index? digits).map .param
  | 't' :: 'm' :: 'p' :: digits => (index? digits).map .temp
  | _ => none

/-- Reads a lane: an array and a number in brackets. -/
def laneOfChars? (cs : List Char) : Option (ArrayRef × Nat) :=
  match Text.splitOn '[' cs with
  | [array, index] =>
    if index.getLast? = some ']' then do
      return (← ArrayRef.ofChars? array, ← index? index.dropLast)
    else none
  | _ => none

/-- Reads the target of an assignment. -/
def Place.ofChars? : List Char → Option Place
  | 'l' :: digits => (index? digits).map .var
  | cs => (laneOfChars? cs).map fun p => .lane p.1 p.2

/-- Reads a value without operators. -/
def Value.atomOfChars? (cs : List Char) : Option Value :=
  match laneOfChars? cs, cs with
  | some (array, lane), _ => some (.load array lane)
  | none, '#' :: digits => (Hex.value? digits).map fun n => .const ⟨n.toUInt32⟩
  | none, 'p' :: digits => (index? digits).map .param
  | none, 'l' :: digits => (index? digits).map .var
  | none, _ => none

/-- The operator that a word writes. -/
def BinOp.ofChars? (cs : List Char) : Option BinOp :=
  [BinOp.add, .sub, .mul].find? fun op => op.symbol.toList == cs

/-- The values before a word, latest first, become those after it. -/
def Value.pushWord? (stack : List Value) (word : List Char) : Option (List Value) :=
  match BinOp.ofChars? word, stack with
  | some op, rhs :: lhs :: rest => some (.binary op lhs rhs :: rest)
  | some _, _ => none
  | none, _ => (Value.atomOfChars? word).map (· :: stack)

/-- Reads a value in postfix form. -/
def Value.ofPostfix? (text : String) : Option Value :=
  match (Text.words text.toList).foldlM Value.pushWord? [] with
  | some [value] => some value
  | _ => none

end PixelPipeline.Ir
