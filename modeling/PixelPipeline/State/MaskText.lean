import PixelPipeline.State.Blend
import PixelPipeline.Text.Blank
import PixelPipeline.Text.Hex

/-!
# Colour masks as text

A mask is written as the names of its channels with bars between them, and the
bits that are no channel as one hexadecimal number at the end.  Reading accepts
names and hexadecimal numbers in any order, with or without blanks around the
bars; blank text is the empty mask.
-/

namespace PixelPipeline.ColorMask

/-- The channel names with their bits. -/
def channelNames : List (String × UInt8) := [("R", 1), ("G", 2), ("B", 4), ("A", 8)]

/-- The names that can be read. -/
def names : List (String × UInt8) := channelNames ++ [("RGB", 7)]

/-- The bits of a hexadecimal number, which may have a plus sign and must fit in
a byte. -/
def hexBits? (digits : List Char) : Option UInt8 := do
  let digits := match digits with
    | '+' :: rest => rest
    | _ => digits
  let n ← Hex.value? digits
  if n < 256 then some n.toUInt8 else none

/-- The bits of one item. -/
def itemBits? (item : List Char) : Option UInt8 :=
  match item with
  | '0' :: 'x' :: digits => hexBits? digits
  | _ => (names.find? fun n => n.1.toList == item).map Prod.snd

/-- Reads a mask. -/
def ofText? (text : String) : Option ColorMask := do
  let cs := text.toList
  if (Text.trim cs).isEmpty then some ⟨0⟩
  else
    let bits ← ((Text.splitOn '|' cs).map Text.trim).mapM itemBits?
    some ⟨bits.foldl (· ||| ·) 0⟩

/-- Writes a mask. -/
def text (mask : ColorMask) : String :=
  let named := (channelNames.filter fun n => mask.bits &&& n.2 != 0).map Prod.fst
  let rest := mask.bits &&& 0xf0
  let unnamed := if rest = 0 then [] else [Hex.code rest.toNat]
  " | ".intercalate (named ++ unnamed)

end PixelPipeline.ColorMask
