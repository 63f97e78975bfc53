import PixelPipeline.Fnv
import PixelPipeline.State.Blend

/-!
# Fingerprints of pipeline states

The fingerprint is the FNV-1a digest of a fixed encoding of the state: the four
factors and two equations as words, source before destination and colour before
alpha, then the mask and the three switches as single bytes.  Equal states have
equal fingerprints; unequal states may collide, so whoever indexes by
fingerprint still compares states.
-/

namespace PixelPipeline.PipelineState

/-- The words of the encoding: the codes of factors and equations. -/
def codeWords (s : PipelineState) : List UInt32 :=
  let a := s.attachment
  [Named.code a.srcRgb, Named.code a.srcAlpha, Named.code a.dstRgb, Named.code a.dstAlpha,
    Named.code a.eqRgb, Named.code a.eqAlpha].map Nat.toUInt32

/-- The switches of the encoding: four mask channels and three enables. -/
def switches (s : PipelineState) : List Bool :=
  s.attachment.colorMask.channels.toList ++ [s.attachment.enable, s.blendEnabled, s.depthWrite]

/-- The digest of the encoding. -/
def fingerprint (s : PipelineState) : UInt32 :=
  (s.switches.foldl Fnv32.flag (s.codeWords.foldl Fnv32.word Fnv32.empty)).state

end PixelPipeline.PipelineState
