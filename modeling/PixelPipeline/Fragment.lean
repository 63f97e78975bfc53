import PixelPipeline.Texture.Sample

/-!
# Fragments and shaders

A fragment is a candidate for one window position.  A shader gives it a colour,
discards it, or fails; it may read textures and may remember something from one
fragment to the next.
-/

namespace PixelPipeline

/-- A fragment: window position, depth, facing, and what the shader receives. -/
structure Fragment where
  x : Int
  y : Int
  z : Binary32
  frontFacing : Bool
  varyings : List Color

/-- A value for the shader; transparent black if there is none. -/
def Fragment.varying (f : Fragment) (index : Nat) : Color :=
  f.varyings[index]?.getD Color.transparent

/-- A shader that remembers values in `σ`. -/
structure Shader (σ : Type) where
  /-- A colour, or nothing if the fragment is discarded. -/
  shade : Fragment → Textures → σ → Except Fault (Option Color) × σ

/-- The shader of a function without memory. -/
def Shader.ofFunction (f : Fragment → Textures → Except Fault (Option Color)) : Shader Unit :=
  ⟨fun fragment textures _ => (f fragment textures, ())⟩

/-- The stage that turned a fragment away. -/
inductive DiscardReason where
  | rasterizerDiscard
  | depthRange
  | scissor
  | outOfBounds
  | stencilTest
  | depthTest
  | shader
  deriving DecidableEq, Repr

instance : Named DiscardReason where
  all := [.rasterizerDiscard, .depthRange, .scissor, .outOfBounds, .stencilTest, .depthTest,
    .shader]
  name
    | .rasterizerDiscard => "RasterizerDiscard"
    | .depthRange => "DepthRange"
    | .scissor => "Scissor"
    | .outOfBounds => "OutOfBounds"
    | .stencilTest => "StencilTest"
    | .depthTest => "DepthTest"
    | .shader => "Shader"

/-- What became of a fragment. -/
inductive FragmentOutcome where
  | written
  | discarded (reason : DiscardReason)
  deriving DecidableEq, Repr

/-- The outcomes of a draw, counted. -/
structure DrawStats where
  written : Nat
  discarded : Nat
  deriving DecidableEq, Repr

/-- Nothing drawn. -/
instance : Inhabited DrawStats := ⟨⟨0, 0⟩⟩

/-- Counts one more outcome. -/
def DrawStats.record (s : DrawStats) : FragmentOutcome → DrawStats
  | .written => { s with written := s.written + 1 }
  | .discarded _ => { s with discarded := s.discarded + 1 }

end PixelPipeline
