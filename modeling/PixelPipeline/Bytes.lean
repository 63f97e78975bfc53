import PixelPipeline.Power

/-!
# Little-endian words

Multi-byte values lie in memory with the least significant byte first.  A
texel is a short list of bytes; `wordOf` and `wordBytes` convert between such a
list and the number it writes.

* `wordOf_wordBytes` — the bytes of a word write its low part;
* `wordBytes_wordOf` — bytes are those of the number they write.
-/

namespace PixelPipeline

/-- A run of bytes. -/
abbrev Bytes : Type := List UInt8

namespace Bytes

/-- The number that the bytes write, least significant first. -/
def wordOf : Bytes → Nat
  | [] => 0
  | b :: rest => b.toNat + 256 * wordOf rest

/-- The `size` low bytes of a number, least significant first. -/
def wordBytes : (size : Nat) → Nat → Bytes
  | 0, _ => []
  | size + 1, n => n.toUInt8 :: wordBytes size (n / 256)

/-- The two's-complement reading of a word of `bits` bits. -/
def signed (bits word : Nat) : Int :=
  if word < 2 ^ (bits - 1) then word else (word : Int) - 2 ^ bits

/-- The two's-complement word of an integer. -/
def ofSigned (bits : Nat) (i : Int) : Nat := (i % (2 ^ bits : Nat)).toNat

/-- The bytes from position `start` on, `count` of them if there are so many. -/
def slice (bytes : Bytes) (start count : Nat) : Bytes := (bytes.drop start).take count

/-- The bytes with those from position `start` on replaced. -/
def overwrite (bytes : Bytes) (start : Nat) (new : Bytes) : Bytes :=
  bytes.take start ++ new ++ bytes.drop (start + new.length)

/-! ## The number and its bytes -/

/-- A word's bytes are as many as asked for. -/
theorem length_wordBytes (size n : Nat) : (wordBytes size n).length = size := by
  induction size generalizing n with
  | zero => rfl
  | succ size ih => simp [wordBytes, ih]

/-- A list of bytes writes a number below `256 ^ length`. -/
theorem wordOf_lt (bytes : Bytes) : wordOf bytes < 256 ^ bytes.length := by
  induction bytes with
  | nil => simp [wordOf]
  | cons b rest ih =>
    have hb : b.toNat < 256 := b.toNat_lt
    simp only [wordOf, List.length_cons, Nat.pow_succ]
    omega

/-- The bytes of a word write its low part. -/
theorem wordOf_wordBytes (size n : Nat) : wordOf (wordBytes size n) = n % 256 ^ size := by
  induction size generalizing n with
  | zero => simp [wordBytes, wordOf, Nat.mod_one]
  | succ size ih =>
    simp only [wordBytes, wordOf, ih, Nat.pow_succ]
    rw [Nat.mul_comm (256 ^ size) 256, Nat.mod_mul]
    simp

/-- Bytes are those of the number they write. -/
theorem wordBytes_wordOf (bytes : Bytes) : wordBytes bytes.length (wordOf bytes) = bytes := by
  induction bytes with
  | nil => rfl
  | cons b rest ih =>
    have hb : b.toNat < 256 := b.toNat_lt
    have low : (b.toNat + 256 * wordOf rest).toUInt8 = b := by
      apply UInt8.toNat_inj.1
      simp
    have high : (b.toNat + 256 * wordOf rest) / 256 = wordOf rest := by omega
    simp [wordBytes, wordOf, low, high, ih]

end Bytes

end PixelPipeline
