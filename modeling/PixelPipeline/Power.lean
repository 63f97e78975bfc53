/-!
# Powers

Powers with a natural exponent are those of the core library, also in a module
that imports an algebra library with powers of its own.
-/

namespace PixelPipeline

@[default_instance 20000]
instance (priority := 20000) powNat {α : Type} [NatPow α] : Pow α Nat := instPowNat

end PixelPipeline
