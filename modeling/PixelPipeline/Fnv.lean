/-!
# 32-bit FNV-1a

The digest folds a byte at a time: exclusive-or with the byte, then multiply by
the prime modulo `2 ^ 32`.  Words are folded in little-endian order, so a
digest does not depend on the machine.
-/

namespace PixelPipeline

/-- The running state of a digest, which is also its value so far. -/
structure Fnv32 where
  state : UInt32
  deriving DecidableEq, Repr

namespace Fnv32

/-- The digest of no bytes. -/
def offsetBasis : UInt32 := 0x811c9dc5

/-- The multiplier; it is odd, so multiplication permutes the states. -/
def prime : UInt32 := 0x01000193

/-- A fresh digest. -/
def empty : Fnv32 := ⟨offsetBasis⟩

instance : Inhabited Fnv32 := ⟨empty⟩

/-- Folds one byte. -/
def byte (h : Fnv32) (b : UInt8) : Fnv32 := ⟨(h.state ^^^ b.toUInt32) * prime⟩

/-- Folds bytes from left to right. -/
def bytes (h : Fnv32) (bs : List UInt8) : Fnv32 := bs.foldl byte h

/-- The four bytes of a word, least significant first. -/
def wordBytes (w : UInt32) : List UInt8 :=
  [w.toUInt8, (w >>> 8).toUInt8, (w >>> 16).toUInt8, (w >>> 24).toUInt8]

/-- Folds a word. -/
def word (h : Fnv32) (w : UInt32) : Fnv32 := h.bytes (wordBytes w)

/-- Folds a switch as one byte. -/
def flag (h : Fnv32) (b : Bool) : Fnv32 := h.byte (if b then 1 else 0)

/-- The digest of a byte string. -/
def hashBytes (bs : List UInt8) : UInt32 := (empty.bytes bs).state

end Fnv32

end PixelPipeline
