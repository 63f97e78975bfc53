import PixelPipeline.Color
import PixelPipeline.Text.Named

/-!
# Samplers

How coordinates outside an image are treated, which filter applies along the
axes and between levels, and how the level of detail is biased and clamped.
-/

namespace PixelPipeline

/-- Treatment of coordinates outside the image, per axis. -/
inductive AddressMode where
  | clampToEdge
  | clampToBorder
  | wrapAround
  | mirroredRepeat
  | mirrorClampToEdge
  deriving DecidableEq, Repr, Inhabited

instance : Named AddressMode where
  all := [.clampToEdge, .clampToBorder, .wrapAround, .mirroredRepeat, .mirrorClampToEdge]
  name
    | .clampToEdge => "ClampToEdge"
    | .clampToBorder => "ClampToBorder"
    | .wrapAround => "Repeat"
    | .mirroredRepeat => "MirroredRepeat"
    | .mirrorClampToEdge => "MirrorClampToEdge"

/-- Texel filter along every sampled axis. -/
inductive FilterMode where
  | nearest
  | linear
  | cubic
  deriving DecidableEq, Repr, Inhabited

instance : Named FilterMode where
  all := [.nearest, .linear, .cubic]
  name
    | .nearest => "Nearest"
    | .linear => "Linear"
    | .cubic => "Cubic"

/-- Filter between levels. -/
inductive MipmapFilterMode where
  | nearest
  | linear
  deriving DecidableEq, Repr, Inhabited

instance : Named MipmapFilterMode where
  all := [.nearest, .linear]
  name
    | .nearest => "Nearest"
    | .linear => "Linear"

/-- Sampler state. -/
structure Sampler where
  addressU : AddressMode
  addressV : AddressMode
  addressW : AddressMode
  magFilter : FilterMode
  minFilter : FilterMode
  mipmapFilter : MipmapFilterMode
  lodBias : Binary32
  lodMin : Binary32
  lodMax : Binary32
  /-- Kept for the user; sampling is isotropic. -/
  anisotropy : Nat
  /-- The colour of taps outside an axis that clamps to the border. -/
  border : Color

namespace Sampler

/-- Linear filtering with repetition on every axis. -/
def linear : Sampler where
  addressU := .wrapAround
  addressV := .wrapAround
  addressW := .wrapAround
  magFilter := .linear
  minFilter := .linear
  mipmapFilter := .nearest
  lodBias := Binary32.zero
  lodMin := Binary32.zero
  lodMax := Binary32.ofNat 1000
  anisotropy := 1
  border := Color.transparent

/-- The same address mode on every axis. -/
def withAddressMode (s : Sampler) (mode : AddressMode) : Sampler :=
  { s with addressU := mode, addressV := mode, addressW := mode }

/-- The same filter for minification and magnification. -/
def withFilter (s : Sampler) (filter : FilterMode) : Sampler :=
  { s with magFilter := filter, minFilter := filter }

/-- Nearest filtering, clamped to the edge on every axis. -/
def nearest : Sampler := (linear.withAddressMode .clampToEdge).withFilter .nearest

/-- The address modes in the order of the axes. -/
def addressModes (s : Sampler) : List AddressMode := [s.addressU, s.addressV, s.addressW]

/-- The filter for a level of detail: minification above zero. -/
def filterFor (s : Sampler) (lod : Binary32) : FilterMode :=
  if Binary32.lt Binary32.zero lod then s.minFilter else s.magFilter

end Sampler

end PixelPipeline
