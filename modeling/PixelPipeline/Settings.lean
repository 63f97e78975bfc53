import PixelPipeline.Fault

/-!
# Settings

Capacity and bucket count of the cache, the number of texture units, and whether
generated programs are listed.  The three counts must be positive; they are
checked in this order and the first that is not decides the fault.
-/

namespace PixelPipeline

/-- The settings of a context. -/
structure Settings where
  cacheCapacity : Nat
  cacheBuckets : Nat
  textureUnits : Nat
  traceGeneratedCode : Bool
  deriving DecidableEq, Repr

namespace Settings

/-- The settings of a context for which nothing was chosen. -/
instance : Inhabited Settings := ⟨⟨1024, 512, 16, false⟩⟩

/-- The counts with their names, in the order of the checks. -/
def counts (s : Settings) : List (CountSetting × Nat) :=
  [(.cacheCapacity, s.cacheCapacity), (.cacheBuckets, s.cacheBuckets),
    (.textureUnits, s.textureUnits)]

/-- Accepts settings whose counts are all positive. -/
def validate (s : Settings) : Except Fault Unit :=
  match s.counts.find? fun c => c.2 == 0 with
  | some c => .error (.zeroSetting c.1)
  | none => .ok ()

end Settings

end PixelPipeline
