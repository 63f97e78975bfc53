import PixelPipeline.Binary32.Basic

/-!
# Hexadecimal text

Hashes and floats are written with eight digits, raw codes with as many as they
need, bytes with two each.  All digits are lower-case.
-/

namespace PixelPipeline.Hex

/-- The digits of a number, at least one. -/
def digits (n : Nat) : String := String.ofList (Nat.toDigits 16 n)

/-- The digits of a number, filled up with zeros on the left. -/
def padded (width n : Nat) : String :=
  let body := Nat.toDigits 16 n
  String.ofList (List.replicate (width - body.length) '0' ++ body)

/-- The bits of a float as eight digits; a NaN is written `nan`, whatever its
sign and payload. -/
def float (x : Binary32) : String := if x.isNaN then "nan" else padded 8 x.bits.toNat

/-- The digit of a number below 16. -/
def digit (n : Nat) : Char := Nat.digitChar n

/-- Two digits per byte. -/
def bytes (bs : List UInt8) : String :=
  String.ofList (bs.flatMap fun b => [digit (b.toNat / 16), digit (b.toNat % 16)])

/-- A hash: `0x` and eight digits. -/
def hash (h : UInt32) : String := "0x" ++ padded 8 h.toNat

/-- A raw code: `0x` and its digits. -/
def code (n : Nat) : String := "0x" ++ digits n

/-- The value of a digit of either case. -/
def digitValue? (c : Char) : Option Nat :=
  if c.isDigit then some (c.toNat - '0'.toNat)
  else if 'a' ≤ c ∧ c ≤ 'f' then some (c.toNat - 'a'.toNat + 10)
  else if 'A' ≤ c ∧ c ≤ 'F' then some (c.toNat - 'A'.toNat + 10)
  else none

/-- The number that a non-empty run of digits writes. -/
def value? (cs : List Char) : Option Nat :=
  if cs.isEmpty then none
  else cs.foldlM (fun n c => (digitValue? c).map (16 * n + ·)) 0

/-- The bytes that pairs of digits write. -/
def bytes? : List Char → Option (List UInt8)
  | [] => some []
  | high :: low :: rest => do
    let b := 16 * (← digitValue? high) + (← digitValue? low)
    return b.toUInt8 :: (← bytes? rest)
  | [_] => none

end PixelPipeline.Hex
