import PixelPipeline.Bytes
import PixelPipeline.Color
import PixelPipeline.Image.Component

/-!
# Block compression

A block holds the 16 texels of a 4 by 4 square, texel `i` at column `i % 4` and
row `i / 4`.  It stores a few palette end points and one small index per texel;
texel `i` is the palette entry of its own index and depends on no other index.

* A colour block has two 16-bit end points and 2-bit indices.
* A channel block has two 8-bit end points and 3-bit indices.
* An alpha block has one 4-bit value per texel.
-/

namespace PixelPipeline.Block

/-- The texels of a block in row order. -/
abbrev Texels : Type := Vector Color 16

/-- A little-endian field of a block. -/
def word (block : Bytes) (start count : Nat) : Nat := Bytes.wordOf (Bytes.slice block start count)

/-- The index of texel `i` in a field of `bits`-bit indices. -/
def indexAt (indices bits i : Nat) : Nat := indices / 2 ^ (bits * i) % 2 ^ bits

/-- The quotient of two small numbers. -/
def ratio (n d : Nat) : Binary32 := Binary32.ofNat n / Binary32.ofNat d

/-! ## Colour blocks -/

/-- The colour of a 16-bit end point: five bits of red, six of green, five of
blue. -/
def endPoint (w : Nat) : Color :=
  Color.mk (ratio (w / 2 ^ 11 % 32) 31) (ratio (w / 2 ^ 5 % 64) 63) (ratio (w % 32) 31) Binary32.one

/-- The mean of two colours with the first counted twice. -/
def twoThirds (c d : Color) : Color :=
  Color.divide (Color.add (Color.scale c (Binary32.ofNat 2)) d) (Binary32.ofNat 3)

/-- The mean of two colours with the second counted twice. -/
def oneThird (c d : Color) : Color :=
  Color.divide (Color.add c (Color.scale d (Binary32.ofNat 2))) (Binary32.ofNat 3)

/-- The palette of a colour block.  With `black` given, end points that are not
in falling order select the palette of one mean and that colour. -/
def colorPalette (e0 e1 : Nat) (black : Option Color) : Vector Color 4 :=
  let c := endPoint e0
  let d := endPoint e1
  match black, decide (e0 ≤ e1) with
  | some black, true => #v[c, d, Color.divide (Color.add c d) (Binary32.ofNat 2), black]
  | _, _ => #v[c, d, twoThirds c d, oneThird c d]

/-- The texels of the colour block that starts at `start`. -/
def decodeColor (block : Bytes) (start : Nat) (black : Option Color) : Texels :=
  let palette := colorPalette (word block start 2) (word block (start + 2) 2) black
  let indices := word block (start + 4) 4
  Vector.ofFn fun i => palette[indexAt indices 2 i]?.getD Color.transparent

/-! ## Channel blocks -/

/-- The value of an 8-bit end point. -/
def channelEndPoint (signed : Bool) (code : Nat) : Binary32 :=
  Component.decodeWord (if signed then .snorm8 else .unorm8) code

/-- Whether the first end point is greater, which selects eight steps. -/
def hasEightSteps (signed : Bool) (e0 e1 : Nat) : Bool :=
  if signed then Bytes.signed 8 e1 < Bytes.signed 8 e0 else e1 < e0

/-- The point `t` of `steps` on the way from `v` to `w`. -/
def between (steps : Nat) (v w : Binary32) (t : Nat) : Binary32 :=
  (Binary32.ofNat (steps - t) * v + Binary32.ofNat t * w) / Binary32.ofNat steps

/-- The palette of a channel block: six points between the ends, or four of them
and the two ends of the format's range. -/
def channelPalette (signed : Bool) (e0 e1 : Nat) : Vector Binary32 8 :=
  let v := channelEndPoint signed e0
  let w := channelEndPoint signed e1
  if hasEightSteps signed e0 e1 then
    let p := between 7 v w
    #v[v, w, p 1, p 2, p 3, p 4, p 5, p 6]
  else
    let p := between 5 v w
    let low := if signed then -Binary32.one else Binary32.zero
    #v[v, w, p 1, p 2, p 3, p 4, low, Binary32.one]

/-- The values of the channel block that starts at `start`. -/
def decodeChannel (block : Bytes) (start : Nat) (signed : Bool) : Vector Binary32 16 :=
  let palette := channelPalette signed (word block start 1) (word block (start + 1) 1)
  let indices := word block (start + 2) 6
  Vector.ofFn fun i => palette[indexAt indices 3 i]?.getD Binary32.zero

/-! ## Blocks -/

/-- The texels with their alpha replaced. -/
def withAlpha (texels : Texels) (alpha : Vector Binary32 16) : Texels :=
  Vector.ofFn fun i => (texels.get i).setIfInBounds 3 (alpha.get i)

/-- The values of an alpha block. -/
def decodeAlpha (block : Bytes) : Vector Binary32 16 :=
  let indices := word block 0 8
  Vector.ofFn fun i => ratio (indexAt indices 4 i) 15

/-- The texels of a block, if there are enough bytes; further bytes are
ignored. -/
def decode? (kind : BlockKind) (block : Bytes) : Option Texels :=
  if block.length < kind.size then none
  else some <|
    match kind with
    | .bc1 alpha =>
      let alphaOfBlack := if alpha then Binary32.zero else Binary32.one
      decodeColor block 0 (some (Color.opaqueBlack.setIfInBounds 3 alphaOfBlack))
    | .bc2 => withAlpha (decodeColor block 8 none) (decodeAlpha block)
    | .bc3 => withAlpha (decodeColor block 8 none) (decodeChannel block 0 false)
    | .bc4 signed =>
      (decodeChannel block 0 signed).map fun r => Color.opaqueBlack.setIfInBounds 0 r
    | .bc5 signed =>
      let red := decodeChannel block 0 signed
      let green := decodeChannel block 8 signed
      Vector.ofFn fun i =>
        (Color.opaqueBlack.setIfInBounds 0 (red.get i)).setIfInBounds 1 (green.get i)

end PixelPipeline.Block
