import PixelPipeline.Image.Sampler

/-!
# Wrapping coordinates

An address mode maps every integer coordinate into the range of an axis, or
declares it to be outside.  Repetition takes the Euclidean remainder; the
mirrored modes reflect at the edges, every reflection showing the edge texel
twice.
-/

namespace PixelPipeline

namespace AddressMode

/-- The index in an axis of `size` texels that a coordinate falls on; absent
outside a border. -/
def wrap (mode : AddressMode) (size v : Int) : Option Int :=
  match mode with
  | .clampToEdge => some (max 0 (min v (size - 1)))
  | .clampToBorder => if 0 ≤ v ∧ v < size then some v else none
  | .wrapAround => some (v % size)
  | .mirroredRepeat =>
    let t := v % (2 * size)
    some (if t < size then t else 2 * size - 1 - t)
  | .mirrorClampToEdge =>
    let reflected := if 0 ≤ v then v else -(1 + v)
    some (min reflected (size - 1))

end AddressMode

end PixelPipeline
