import PixelPipeline.Fault
import PixelPipeline.State.Blend
import PixelPipeline.State.Compare

/-!
# State from numeric codes

A front end may hand over state as numbers.  Every code is checked; the fields
of an attachment are checked in order and the first undefined code decides the
fault.
-/

namespace PixelPipeline

/-- The element with a code, or the fault that the code names nothing. -/
def Named.ofCode {α : Type} [Named α] (field : StateField) (code : Nat) : Except Fault α :=
  match Named.ofCode? code with
  | some x => .ok x
  | none => .error (.undefinedState field code)

/-- The factor with a code. -/
def BlendFactor.ofCode (code : Nat) : Except Fault BlendFactor := Named.ofCode .blendFactor code

/-- The equation with a code. -/
def BlendEquation.ofCode (code : Nat) : Except Fault BlendEquation :=
  Named.ofCode .blendEquation code

/-- The comparison with a code. -/
def CompareOp.ofCode (code : Nat) : Except Fault CompareOp := Named.ofCode .compareOp code

/-- The stencil update with a code. -/
def StencilOp.ofCode (code : Nat) : Except Fault StencilOp := Named.ofCode .stencilOp code

/-- The mask with a code; the high bits must be clear. -/
def ColorMask.ofCode (code : Nat) : Except Fault ColorMask :=
  match ColorMask.ofCode? code with
  | some mask => .ok mask
  | none => .error (.undefinedState .colorMask code)

/-- An attachment as numbers. -/
structure AttachmentCodes where
  enable : Bool
  srcRgb : Nat
  dstRgb : Nat
  srcAlpha : Nat
  dstAlpha : Nat
  eqRgb : Nat
  eqAlpha : Nat
  colorMask : Nat
  deriving DecidableEq, Repr

/-- The attachment that the codes describe. -/
def BlendAttachment.ofCodes (c : AttachmentCodes) : Except Fault BlendAttachment := do
  return ⟨c.enable,
    ← BlendFactor.ofCode c.srcRgb, ← BlendFactor.ofCode c.dstRgb,
    ← BlendFactor.ofCode c.srcAlpha, ← BlendFactor.ofCode c.dstAlpha,
    ← BlendEquation.ofCode c.eqRgb, ← BlendEquation.ofCode c.eqAlpha,
    ← ColorMask.ofCode c.colorMask⟩

end PixelPipeline
