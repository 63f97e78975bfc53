import PixelPipeline.Ir.Basic
import PixelPipeline.State.Blend
import PixelPipeline.Text.Hex

/-!
# The blend program of a state

The program of a state has one helper for every factor, equation and mask that
the state uses, each at most once, and an entry that calls them in order: scale
source and destination into temporaries, combine those, and write the result
through the mask.  A state that does not blend writes its source through the
mask at once.  Saturation, minimum and maximum are explicit branches.

`programOf` puts the program down as a whole.  Units are made from what the
emitter of `Blend/Emitter` writes through builders, which is the same program.
-/

namespace PixelPipeline.Blend

open Ir

/-- A helper routine of a blend program. -/
inductive Helper where
  | rgbFactor (factor : BlendFactor)
  | alphaFactor (factor : BlendFactor)
  | rgbEquation (equation : BlendEquation)
  | alphaEquation (equation : BlendEquation)
  | mask (mask : ColorMask)
  deriving DecidableEq, Repr

/-- The colour lanes. -/
def rgbLanes : List Nat := [0, 1, 2]

/-- The alpha lane. -/
def alphaLanes : List Nat := [3]

/-! ## Factors -/

namespace FactorRoutine

/-- A factor helper receives the result, the value to scale, the source, the
destination and the constant. -/
def params : List ParamKind := List.replicate 5 .vec4Ptr

def result : ArrayRef := .param 0
def scaled : ArrayRef := .param 1
def source : ArrayRef := .param 2
def destination : ArrayRef := .param 3
def constant : ArrayRef := .param 4

end FactorRoutine

/-- The constant one. -/
def unit : Value := .const Binary32.one

/-- One minus a value. -/
def complement (v : Value) : Value := .binary .sub unit v

/-- The variable of a saturating helper that holds the saturate factor. -/
def saturateVar : Nat := 0

open FactorRoutine in
/-- The value that a factor multiplies a lane with, if it multiplies at all. -/
def multiplier? (factor : BlendFactor) (lane : Nat) : Option Value :=
  match factor with
  | .zero | .one => none
  | .srcColor => some (.load source lane)
  | .oneMinusSrcColor => some (complement (.load source lane))
  | .dstColor => some (.load destination lane)
  | .oneMinusDstColor => some (complement (.load destination lane))
  | .srcAlpha => some (.load source 3)
  | .oneMinusSrcAlpha => some (complement (.load source 3))
  | .dstAlpha => some (.load destination 3)
  | .oneMinusDstAlpha => some (complement (.load destination 3))
  | .constantColor => some (.load constant lane)
  | .oneMinusConstantColor => some (complement (.load constant lane))
  | .constantAlpha => some (.load constant 3)
  | .oneMinusConstantAlpha => some (complement (.load constant 3))
  | .srcAlphaSaturate => some (.var saturateVar)

open FactorRoutine in
/-- The scaled value of a lane. -/
def scaledValue (factor : BlendFactor) (lane : Nat) : Value :=
  match factor, multiplier? factor lane with
  | .zero, _ => .const Binary32.zero
  | _, some m => .binary .mul (.load scaled lane) m
  | _, none => .load scaled lane

open FactorRoutine in
/-- The blocks that compute the saturate factor: choose, either side, and the
block that goes on with `stmts`. -/
def saturateBlocks (stmts : List Stmt) : List Block :=
  let alpha := Value.load source 3
  let room := complement (.load destination 3)
  let take (v : Value) : Block := ⟨[.assign (.var saturateVar) v], some (.jump 3)⟩
  [⟨[], some (.branch .le alpha room 1 2)⟩, take alpha, take room, ⟨stmts, some .ret⟩]

/-- The helper for a factor on some lanes. -/
def factorRoutine (name : String) (factor : BlendFactor) (lanes : List Nat) : Routine :=
  let stores := lanes.map fun lane =>
    Stmt.assign (.lane FactorRoutine.result lane) (scaledValue factor lane)
  if factor = .srcAlphaSaturate then
    ⟨name, FactorRoutine.params, 1, 0, saturateBlocks stores⟩
  else ⟨name, FactorRoutine.params, 0, 0, [⟨stores, some .ret⟩]⟩

/-! ## Equations -/

namespace EquationRoutine

/-- An equation helper receives the result, the source and the destination. -/
def params : List ParamKind := List.replicate 3 .vec4Ptr

def result : ArrayRef := .param 0
def source : ArrayRef := .param 1
def destination : ArrayRef := .param 2

end EquationRoutine

/-- How an equation works on a lane. -/
inductive EquationShape where
  | compute (op : BinOp) (swapped : Bool)
  | choose (op : CmpOp)

/-- The shape of an equation. -/
def EquationShape.of : BlendEquation → EquationShape
  | .add => .compute .add false
  | .subtract => .compute .sub false
  | .reverseSubtract => .compute .sub true
  | .min => .choose .le
  | .max => .choose .ge

open EquationRoutine in
/-- The blocks that choose lane by lane: each lane ends the block before it with
a branch, and adds two blocks that store and one that goes on. -/
def chooseBlocks (op : CmpOp) : (first : Nat) → List Nat → List Block
  | _, [] => [⟨[], some .ret⟩]
  | first, lane :: rest =>
    let src := Value.load source lane
    let dst := Value.load destination lane
    let take (v : Value) : Block :=
      ⟨[.assign (.lane result lane) v], some (.jump (first + 3))⟩
    ⟨[], some (.branch op src dst (first + 1) (first + 2))⟩ :: take src :: take dst ::
      chooseBlocks op (first + 3) rest

open EquationRoutine in
/-- The helper for an equation on some lanes. -/
def equationRoutine (name : String) (equation : BlendEquation) (lanes : List Nat) : Routine :=
  let blocks := match EquationShape.of equation with
    | .choose op => chooseBlocks op 0 lanes
    | .compute op swapped =>
      let stores := lanes.map fun lane =>
        let src := Value.load source lane
        let dst := Value.load destination lane
        Stmt.assign (.lane result lane)
          (if swapped then .binary op dst src else .binary op src dst)
      [⟨stores, some .ret⟩]
  ⟨name, EquationRoutine.params, 0, 0, blocks⟩

/-! ## The mask -/

/-- The helper that copies the masked lanes of its second array to its first. -/
def maskRoutine (mask : ColorMask) : Routine :=
  let lanes := (List.finRange 4).filter mask.has
  let stores := lanes.map fun lane =>
    Stmt.assign (.lane (.param 0) lane.val) (.load (.param 1) lane.val)
  ⟨"color_mask_" ++ Hex.digits mask.bits.toNat, List.replicate 2 .vec4Ptr, 0, 0,
    [⟨stores, some .ret⟩]⟩

/-! ## The module -/

/-- The routine of a helper. -/
def Helper.routine : Helper → Routine
  | .rgbFactor f => factorRoutine ("rgb_" ++ Named.name f) f rgbLanes
  | .alphaFactor f => factorRoutine ("alpha_" ++ Named.name f) f alphaLanes
  | .rgbEquation e => equationRoutine ("eq_rgb_" ++ Named.name e) e rgbLanes
  | .alphaEquation e => equationRoutine ("eq_alpha_" ++ Named.name e) e alphaLanes
  | .mask m => maskRoutine m

namespace Entry

/-- The entry receives the stored colour, the stored depth, the incoming colour
and depth, and the blend constant. -/
def params : List ParamKind := [.vec4Ptr, .scalarPtr, .vec4Ptr, .scalar, .vec4Ptr]

def colorBuf : ArrayRef := .param 0
def depthBuf : ArrayRef := .param 1
def color : ArrayRef := .param 2
def depthParam : Nat := 3
def constant : ArrayRef := .param 4
def scaledSrc : ArrayRef := .temp 0
def scaledDst : ArrayRef := .temp 1
def combined : ArrayRef := .temp 2

end Entry

/-- A call of a helper by what it is rather than by its number. -/
structure HelperCall where
  helper : Helper
  args : List ArrayRef

open Entry in
/-- The calls of a state's entry, in order. -/
def calls (s : PipelineState) : List HelperCall :=
  let a := s.attachment
  let scaleInto (res org : ArrayRef) : List ArrayRef := [res, org, color, colorBuf, constant]
  if s.blendingActive then
    [⟨.rgbFactor a.srcRgb, scaleInto scaledSrc color⟩,
      ⟨.rgbFactor a.dstRgb, scaleInto scaledDst colorBuf⟩,
      ⟨.alphaFactor a.srcAlpha, scaleInto scaledSrc color⟩,
      ⟨.alphaFactor a.dstAlpha, scaleInto scaledDst colorBuf⟩,
      ⟨.rgbEquation a.eqRgb, [combined, scaledSrc, scaledDst]⟩,
      ⟨.alphaEquation a.eqAlpha, [combined, scaledSrc, scaledDst]⟩,
      ⟨.mask a.colorMask, [colorBuf, combined]⟩]
  else [⟨.mask a.colorMask, [colorBuf, color]⟩]

/-- The helpers of a state's program by number: the mask first, then the others
in the order of their calls, each once. -/
def helpers (s : PipelineState) : List Helper :=
  (.mask s.attachment.colorMask :: (calls s).map HelperCall.helper).eraseDups

/-- The call as a statement of the entry. -/
def HelperCall.stmt (numbered : List Helper) (c : HelperCall) : Stmt :=
  .call (numbered.idxOf c.helper) (c.args.map .array)

/-- The entry of a state's program. -/
def entryRoutine (s : PipelineState) : Routine :=
  let storeDepth :=
    if s.depthWrite then [Stmt.assign (.lane Entry.depthBuf 0) (.param Entry.depthParam)] else []
  ⟨"fragment_set", Entry.params, 0, if s.blendingActive then 3 else 0,
    [⟨(calls s).map (HelperCall.stmt (helpers s)) ++ storeDepth, some .ret⟩]⟩

/-- The blend program of a state: its helpers and, last, its entry. -/
def programOf (s : PipelineState) : Module :=
  { routines := (helpers s).map Helper.routine ++ [entryRoutine s]
    entry := some (helpers s).length }

end PixelPipeline.Blend
