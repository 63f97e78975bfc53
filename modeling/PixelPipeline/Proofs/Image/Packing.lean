import Mathlib.Algebra.BigOperators.Fin
import Mathlib.Tactic.FinCases
import PixelPipeline.Image.Block
import PixelPipeline.Proofs.Image.Fields

/-!
# Packed blocks

A block is put together from its end points and one index for each texel, all of them little
endian: the index of texel `i` lies at bit `2 * i`, `3 * i` or `4 * i` of its field, so indices
of three bits lie across the bytes.  `pack` builds the block, `entry` is what the palette of
the end points holds at an index.

* `indexAt_packIndices` — the index of a texel is read back, whatever the others are;
* `exists_pack` — every block is packed from some end points and indices;
* `decode?_packed` — every texel decodes to the palette entry of its own index.
-/

namespace PixelPipeline.Block

open Bytes (wordOf wordBytes length_wordBytes wordOf_wordBytes wordBytes_wordOf)

/-! ## Fields of indices -/

/-- The number that holds the index of texel `i` at bit `bits * i`. -/
def packIndices (bits : Nat) (index : Fin 16 → Fin (2 ^ bits)) : Nat :=
  ∑ i, (index i).val * 2 ^ (bits * i.val)

/-- Packed indices are the digits of a number. -/
theorem packIndices_eq (bits : Nat) (index : Fin 16 → Fin (2 ^ bits)) :
    packIndices bits index = (finFunctionFinEquiv index).val := by
  rw [packIndices, finFunctionFinEquiv_apply]
  exact Finset.sum_congr rfl fun i _ => by rw [Nat.pow_mul]

/-- Sixteen indices take two bytes for each of their bits. -/
theorem pow_indices (bits : Nat) : (2 ^ bits) ^ 16 = 256 ^ (2 * bits) := by
  rw [Bytes.pow_bytes, ← Nat.pow_mul]
  congr 1
  omega

/-- Packed indices fit their bytes. -/
theorem packIndices_lt (bits : Nat) (index : Fin 16 → Fin (2 ^ bits)) :
    packIndices bits index < 256 ^ (2 * bits) := by
  rw [packIndices_eq, ← pow_indices]
  exact (finFunctionFinEquiv index).isLt

/-- The index of a texel is read back, whatever the others are. -/
theorem indexAt_packIndices (bits : Nat) (index : Fin 16 → Fin (2 ^ bits)) (i : Fin 16) :
    indexAt (packIndices bits index) bits i = index i := by
  have hback := congrFun (finFunctionFinEquiv.symm_apply_apply index) i
  rw [← hback, indexAt, packIndices_eq, Nat.pow_mul]
  rfl

/-- Every number of that size holds some indices. -/
theorem exists_packIndices {bits n : Nat} (hlt : n < 256 ^ (2 * bits)) :
    ∃ index, packIndices bits index = n := by
  rw [← pow_indices] at hlt
  obtain ⟨index, hindex⟩ := finFunctionFinEquiv.surjective (⟨n, hlt⟩ : Fin ((2 ^ bits) ^ 16))
  exact ⟨index, by rw [packIndices_eq, hindex]⟩

/-! ## End points and palettes -/

/-- The two end points of a colour block. -/
abbrev ColorEnds : Type := UInt16 × UInt16

/-- The two end points of a channel block. -/
abbrev ChannelEnds : Type := UInt8 × UInt8

/-- What a colour block has at an index. -/
def colorEntry (ends : ColorEnds) (black : Option Color) (k : Fin 4) : Color :=
  let c := endPoint ends.1.toNat
  let d := endPoint ends.2.toNat
  match black, decide (ends.1 ≤ ends.2), k with
  | _, _, 0 => c
  | _, _, 1 => d
  | some _, true, 2 => Color.divide (Color.add c d) (Binary32.ofNat 2)
  | some black, true, 3 => black
  | _, _, 2 => twoThirds c d
  | _, _, 3 => oneThird c d

/-- Whether a channel block has six points between its ends. -/
def fallsAs (signed : Bool) (ends : ChannelEnds) : Bool :=
  if signed then ends.2.toInt8 < ends.1.toInt8 else ends.2 < ends.1

/-- What a channel block has at an index. -/
def channelEntry (signed : Bool) (ends : ChannelEnds) (k : Fin 8) : Binary32 :=
  let v := channelEndPoint signed ends.1.toNat
  let w := channelEndPoint signed ends.2.toNat
  match k.val with
  | 0 => v
  | 1 => w
  | t + 2 =>
    if fallsAs signed ends then between 7 v w (t + 1)
    else if t < 4 then between 5 v w (t + 1)
    else if t = 4 then if signed then -Binary32.one else Binary32.zero
    else Binary32.one

/-- A palette has the colour entries. -/
theorem get_colorPalette (ends : ColorEnds) (black : Option Color) (k : Fin 4) :
    (colorPalette ends.1.toNat ends.2.toNat black).get k = colorEntry ends black k := by
  have hle : (ends.1.toNat ≤ ends.2.toNat) = (ends.1 ≤ ends.2) := rfl
  unfold colorPalette colorEntry
  simp only [hle]
  cases black <;> cases decide (ends.1 ≤ ends.2) <;> fin_cases k <;> rfl

/-- A byte read as a signed one. -/
theorem signed_toNat (b : UInt8) : Bytes.signed 8 b.toNat = b.toInt8.toInt := by
  have hlt := b.toNat_lt
  rw [← Int8.toInt_toBitVec, UInt8.toBitVec_toInt8, BitVec.toInt_eq_toNat_cond, Bytes.signed,
    UInt8.toNat_toBitVec]
  split <;> split <;> omega

/-- A channel has eight steps if its end points fall. -/
theorem hasEightSteps_eq (signed : Bool) (ends : ChannelEnds) :
    hasEightSteps signed ends.1.toNat ends.2.toNat = fallsAs signed ends := by
  unfold hasEightSteps fallsAs
  rw [signed_toNat, signed_toNat]
  simp only [Int8.lt_iff_toInt_lt, UInt8.lt_iff_toNat_lt]

/-- A palette has the channel entries. -/
theorem get_channelPalette (signed : Bool) (ends : ChannelEnds) (k : Fin 8) :
    (channelPalette signed ends.1.toNat ends.2.toNat).get k = channelEntry signed ends k := by
  unfold channelPalette channelEntry
  rw [hasEightSteps_eq]
  cases fallsAs signed ends <;> fin_cases k <;> rfl

/-! ## The parts of a block -/

/-- The bytes of a colour block. -/
def colorBytes (ends : ColorEnds) (index : Fin 16 → Fin 4) : Bytes :=
  wordBytes 2 ends.1.toNat ++ wordBytes 2 ends.2.toNat ++ wordBytes 4 (packIndices 2 index)

/-- The bytes of a channel block. -/
def channelBytes (ends : ChannelEnds) (index : Fin 16 → Fin 8) : Bytes :=
  wordBytes 1 ends.1.toNat ++ wordBytes 1 ends.2.toNat ++ wordBytes 6 (packIndices 3 index)

/-- The bytes of an alpha block. -/
def alphaBytes (alpha : Fin 16 → Fin 16) : Bytes := wordBytes 8 (packIndices 4 alpha)

-- the index of texel 2 lies across two bytes
example : channelBytes (7, 9) (fun i => if i = 2 then 5 else 0) = [7, 9, 64, 1, 0, 0, 0, 0] := by
  decide

variable {front rest : Bytes} {start : Nat}

/-- A colour block has eight bytes. -/
@[simp] theorem length_colorBytes (ends : ColorEnds) (index : Fin 16 → Fin 4) :
    (colorBytes ends index).length = 8 := by
  simp [colorBytes, length_wordBytes]

/-- A channel block has eight bytes. -/
@[simp] theorem length_channelBytes (ends : ChannelEnds) (index : Fin 16 → Fin 8) :
    (channelBytes ends index).length = 8 := by
  simp [channelBytes, length_wordBytes]

/-- A block of alphas has eight bytes. -/
@[simp] theorem length_alphaBytes (alpha : Fin 16 → Fin 16) : (alphaBytes alpha).length = 8 := by
  simp [alphaBytes, length_wordBytes]

/-- A word that was put into a block is read back. -/
theorem word_append {size n : Nat} (hstart : front.length = start) (hn : n < 256 ^ size)
    (rest : Bytes) : word (front ++ (wordBytes size n ++ rest)) start size = n := by
  have hslice : Bytes.slice (front ++ (wordBytes size n ++ rest)) start size
      = wordBytes size n := by
    unfold Bytes.slice
    rw [List.drop_left' hstart, List.take_left' (length_wordBytes size n)]
  rw [word, hslice, wordOf_wordBytes, Nat.mod_eq_of_lt hn]

/-- Two end points and a field of indices are read back. -/
theorem word_parts {size count a b n : Nat} (hstart : front.length = start)
    (ha : a < 256 ^ size) (hb : b < 256 ^ size) (hn : n < 256 ^ count) (rest : Bytes) :
    let block := front ++ (wordBytes size a ++ wordBytes size b ++ wordBytes count n ++ rest)
    word block start size = a ∧ word block (start + size) size = b ∧
      word block (start + (size + size)) count = n := by
  refine ⟨?_, ?_, ?_⟩
  · rw [List.append_assoc, List.append_assoc]
    exact word_append hstart ha _
  · rw [List.append_assoc, List.append_assoc, ← List.append_assoc]
    exact word_append (by rw [List.length_append, hstart, length_wordBytes]) hb _
  · rw [List.append_assoc, ← List.append_assoc]
    refine word_append ?_ hn _
    rw [List.length_append, List.length_append, hstart, length_wordBytes, length_wordBytes]

/-- **The texels of a colour block** are the entries of their indices. -/
theorem decodeColor_append (hstart : front.length = start) (ends : ColorEnds)
    (index : Fin 16 → Fin 4) (rest : Bytes) (black : Option Color) :
    decodeColor (front ++ (colorBytes ends index ++ rest)) start black
      = Vector.ofFn fun i => colorEntry ends black (index i) := by
  obtain ⟨hfirst, hsecond, hindices⟩ := word_parts hstart (show _ < 256 ^ 2 from ends.1.toNat_lt)
    ends.2.toNat_lt (packIndices_lt 2 index) rest
  have hentry (i : Fin 16) : (colorPalette ends.1.toNat ends.2.toNat black)[
      indexAt (packIndices 2 index) 2 i]?.getD Color.transparent
        = colorEntry ends black (index i) := by
    rw [indexAt_packIndices, ← get_colorPalette]
    exact congrArg (·.getD Color.transparent) (Vector.getElem?_eq_getElem (index i).isLt)
  unfold decodeColor colorBytes
  rw [hfirst, hsecond, hindices]
  exact congrArg Vector.ofFn (funext hentry)

/-- **The values of a channel block** are the entries of their indices. -/
theorem decodeChannel_append (hstart : front.length = start) (signed : Bool)
    (ends : ChannelEnds) (index : Fin 16 → Fin 8) (rest : Bytes) :
    decodeChannel (front ++ (channelBytes ends index ++ rest)) start signed
      = Vector.ofFn fun i => channelEntry signed ends (index i) := by
  obtain ⟨hfirst, hsecond, hindices⟩ := word_parts hstart (show _ < 256 ^ 1 from ends.1.toNat_lt)
    ends.2.toNat_lt (packIndices_lt 3 index) rest
  have hentry (i : Fin 16) : (channelPalette signed ends.1.toNat ends.2.toNat)[
      indexAt (packIndices 3 index) 3 i]?.getD Binary32.zero
        = channelEntry signed ends (index i) := by
    rw [indexAt_packIndices, ← get_channelPalette]
    exact congrArg (·.getD Binary32.zero) (Vector.getElem?_eq_getElem (index i).isLt)
  unfold decodeChannel channelBytes
  rw [hfirst, hsecond, hindices]
  exact congrArg Vector.ofFn (funext hentry)

/-- **The values of an alpha block** are those that it was packed from. -/
theorem decodeAlpha_append (alpha : Fin 16 → Fin 16) (rest : Bytes) :
    decodeAlpha (alphaBytes alpha ++ rest) = Vector.ofFn fun i => ratio (alpha i) 15 := by
  have hvalues : word (alphaBytes alpha ++ rest) 0 8 = packIndices 4 alpha :=
    word_append (show List.length ([] : Bytes) = 0 from rfl) (packIndices_lt 4 alpha) rest
  have hvalue (i : Fin 16) : ratio (indexAt (packIndices 4 alpha) 4 i) 15 = ratio (alpha i) 15 :=
    congrArg (ratio · 15) (indexAt_packIndices 4 alpha i)
  unfold decodeAlpha
  rw [hvalues]
  exact congrArg Vector.ofFn (funext hvalue)

/-! ## Every part is packed -/

/-- Bytes are the words that they write. -/
theorem exists_word {bytes : Bytes} {size : Nat} (hlength : bytes.length = size) :
    ∃ n < 256 ^ size, bytes = wordBytes size n := by
  subst hlength
  exact ⟨wordOf bytes, Bytes.wordOf_lt bytes, (wordBytes_wordOf bytes).symm⟩

/-- Bytes are two words of one size and what follows them. -/
theorem exists_parts {bytes : Bytes} {size count : Nat}
    (hlength : bytes.length = size + size + count) :
    ∃ a < 256 ^ size, ∃ b < 256 ^ size, ∃ n < 256 ^ count,
      bytes = wordBytes size a ++ wordBytes size b ++ wordBytes count n := by
  obtain ⟨a, ha, hfirst⟩ := exists_word (show (bytes.take size).length = size by
    rw [List.length_take]; omega)
  obtain ⟨b, hb, hsecond⟩ := exists_word
    (show ((bytes.drop size).take size).length = size by
      rw [List.length_take, List.length_drop]; omega)
  obtain ⟨n, hn, hindices⟩ := exists_word
    (show ((bytes.drop size).drop size).length = count by
      rw [List.length_drop, List.length_drop]; omega)
  refine ⟨a, ha, b, hb, n, hn, ?_⟩
  rw [← hfirst, ← hsecond, ← hindices, List.append_assoc, List.take_append_drop,
    List.take_append_drop]

/-- Every eight bytes are a colour block: two end points and sixteen indices. -/
theorem exists_colorBytes {bytes : Bytes} (hlength : bytes.length = 8) :
    ∃ ends index, bytes = colorBytes ends index := by
  obtain ⟨a, ha, b, hb, n, hn, hbytes⟩ := exists_parts (show bytes.length = 2 + 2 + 4 from hlength)
  obtain ⟨index, rfl⟩ := exists_packIndices (show n < 256 ^ (2 * 2) from hn)
  refine ⟨(UInt16.ofNatLT a ha, UInt16.ofNatLT b hb), index, ?_⟩
  rw [hbytes, colorBytes, UInt16.toNat_ofNatLT, UInt16.toNat_ofNatLT]

/-- Every eight bytes are a channel block. -/
theorem exists_channelBytes {bytes : Bytes} (hlength : bytes.length = 8) :
    ∃ ends index, bytes = channelBytes ends index := by
  obtain ⟨a, ha, b, hb, n, hn, hbytes⟩ := exists_parts (show bytes.length = 1 + 1 + 6 from hlength)
  obtain ⟨index, rfl⟩ := exists_packIndices (show n < 256 ^ (2 * 3) from hn)
  refine ⟨(UInt8.ofNatLT a ha, UInt8.ofNatLT b hb), index, ?_⟩
  rw [hbytes, channelBytes, UInt8.toNat_ofNatLT, UInt8.toNat_ofNatLT]

/-- Every eight bytes are a block of alphas. -/
theorem exists_alphaBytes {bytes : Bytes} (hlength : bytes.length = 8) :
    ∃ alpha, bytes = alphaBytes alpha := by
  obtain ⟨n, hn, hbytes⟩ := exists_word hlength
  obtain ⟨alpha, rfl⟩ := exists_packIndices (show n < 256 ^ (2 * 4) from hn)
  exact ⟨alpha, hbytes⟩

/-- A block of sixteen bytes has two halves. -/
theorem halves {bytes : Bytes} (hlength : bytes.length = 16) :
    (bytes.take 8).length = 8 ∧ (bytes.drop 8).length = 8 := by
  rw [List.length_take, List.length_drop]
  omega

/-! ## Whole blocks -/

/-- The end points of a block. -/
abbrev Ends : BlockKind → Type
  | .bc1 _ | .bc2 => ColorEnds
  | .bc3 => ColorEnds × ChannelEnds
  | .bc4 _ => ChannelEnds
  | .bc5 _ => ChannelEnds × ChannelEnds

/-- What a block has for each texel: an index into each of its palettes, or an alpha value. -/
abbrev Index : BlockKind → Type
  | .bc1 _ => Fin 4
  | .bc2 => Fin 4 × Fin 16
  | .bc3 => Fin 4 × Fin 8
  | .bc4 _ => Fin 8
  | .bc5 _ => Fin 8 × Fin 8

/-- The block with the given end points and indices. -/
def pack : (kind : BlockKind) → Ends kind → (Fin 16 → Index kind) → Bytes
  | .bc1 _, ends, index => colorBytes ends index
  | .bc2, ends, index =>
    alphaBytes (fun i => (index i).2) ++ colorBytes ends (fun i => (index i).1)
  | .bc3, ends, index =>
    channelBytes ends.2 (fun i => (index i).2) ++ colorBytes ends.1 (fun i => (index i).1)
  | .bc4 _, ends, index => channelBytes ends index
  | .bc5 _, ends, index =>
    channelBytes ends.1 (fun i => (index i).1) ++ channelBytes ends.2 (fun i => (index i).2)

/-- What the palettes of a block have at an index. -/
def entry : (kind : BlockKind) → Ends kind → Index kind → Color
  | .bc1 alpha, ends, k =>
    let black := Color.opaqueBlack.setIfInBounds 3 (if alpha then Binary32.zero else Binary32.one)
    colorEntry ends (some black) k
  | .bc2, ends, k => (colorEntry ends none k.1).setIfInBounds 3 (ratio k.2 15)
  | .bc3, ends, k =>
    (colorEntry ends.1 none k.1).setIfInBounds 3 (channelEntry false ends.2 k.2)
  | .bc4 signed, ends, k => Color.opaqueBlack.setIfInBounds 0 (channelEntry signed ends k)
  | .bc5 signed, ends, k =>
    (Color.opaqueBlack.setIfInBounds 0 (channelEntry signed ends.1 k.1)).setIfInBounds 1
      (channelEntry signed ends.2 k.2)

/-- A packed block has the size of its kind. -/
theorem length_pack (kind : BlockKind) (ends : Ends kind) (index : Fin 16 → Index kind) :
    (pack kind ends index).length = kind.size := by
  cases kind with
  | bc1 alpha => exact length_colorBytes ends index
  | bc4 signed => exact length_channelBytes ends index
  | bc2 => rw [pack, List.length_append, length_alphaBytes, length_colorBytes]; rfl
  | bc3 => rw [pack, List.length_append, length_channelBytes, length_colorBytes]; rfl
  | bc5 signed => rw [pack, List.length_append, length_channelBytes, length_channelBytes]; rfl

/-- Every block is packed from some end points and indices. -/
theorem exists_pack {kind : BlockKind} {block : Bytes} (hlength : block.length = kind.size) :
    ∃ ends index, block = pack kind ends index := by
  cases kind with
  | bc1 alpha => exact exists_colorBytes hlength
  | bc4 signed => exact exists_channelBytes hlength
  | bc2 =>
    obtain ⟨hfront, hback⟩ := halves hlength
    obtain ⟨values, hvalues⟩ := exists_alphaBytes hfront
    obtain ⟨ends, index, hcolor⟩ := exists_colorBytes hback
    refine ⟨ends, fun i => (index i, values i), ?_⟩
    rw [← List.take_append_drop 8 block, hvalues, hcolor]
    rfl
  | bc3 =>
    obtain ⟨hfront, hback⟩ := halves hlength
    obtain ⟨alpha, values, hvalues⟩ := exists_channelBytes hfront
    obtain ⟨ends, index, hcolor⟩ := exists_colorBytes hback
    refine ⟨(ends, alpha), fun i => (index i, values i), ?_⟩
    rw [← List.take_append_drop 8 block, hvalues, hcolor]
    rfl
  | bc5 signed =>
    obtain ⟨hfront, hback⟩ := halves hlength
    obtain ⟨red, reds, hred⟩ := exists_channelBytes hfront
    obtain ⟨green, greens, hgreen⟩ := exists_channelBytes hback
    refine ⟨(red, green), fun i => (reds i, greens i), ?_⟩
    rw [← List.take_append_drop 8 block, hred, hgreen]
    rfl

/-- A vector that a function gives has its values. -/
theorem get_ofFn {α : Type} (f : Fin 16 → α) (i : Fin 16) : (Vector.ofFn f).get i = f i :=
  Vector.getElem_ofFn i.isLt

/-- Alphas replace the last channel of every colour. -/
theorem withAlpha_ofFn (color : Fin 16 → Color) (alpha : Fin 16 → Binary32) :
    withAlpha (Vector.ofFn color) (Vector.ofFn alpha)
      = Vector.ofFn fun i => (color i).setIfInBounds 3 (alpha i) := by
  unfold withAlpha
  simp only [get_ofFn]

/-- **A packed block** decodes at every texel to the entry of its own index. -/
theorem decode?_pack_append (kind : BlockKind) (ends : Ends kind) (index : Fin 16 → Index kind)
    (rest : Bytes) :
    decode? kind (pack kind ends index ++ rest)
      = some (Vector.ofFn fun i => entry kind ends (index i)) := by
  have hlong : ¬ (pack kind ends index ++ rest).length < kind.size := by
    rw [List.length_append, length_pack]
    omega
  have hstart : List.length ([] : Bytes) = 0 := rfl
  unfold decode?
  rw [if_neg hlong]
  cases kind with
  | bc1 alpha => exact congrArg some (decodeColor_append hstart ends index rest _)
  | bc2 =>
    have hcolor := decodeColor_append (length_alphaBytes fun i => (index i).2) ends
      (fun i => (index i).1) rest none
    have halpha := decodeAlpha_append (fun i => (index i).2)
      (colorBytes ends (fun i => (index i).1) ++ rest)
    simp only [pack, List.append_assoc, hcolor, halpha]
    exact congrArg some (withAlpha_ofFn _ _)
  | bc3 =>
    have hcolor := decodeColor_append (length_channelBytes ends.2 fun i => (index i).2) ends.1
      (fun i => (index i).1) rest none
    have halpha := decodeChannel_append hstart false ends.2 (fun i => (index i).2)
      (colorBytes ends.1 (fun i => (index i).1) ++ rest)
    rw [List.nil_append] at halpha
    simp only [pack, List.append_assoc, hcolor, halpha]
    exact congrArg some (withAlpha_ofFn _ _)
  | bc4 signed =>
    have hred := decodeChannel_append hstart signed ends index rest
    rw [List.nil_append] at hred
    simp only [pack, hred, Vector.map_ofFn]
    rfl
  | bc5 signed =>
    have hred := decodeChannel_append hstart signed ends.1 (fun i => (index i).1)
      (channelBytes ends.2 (fun i => (index i).2) ++ rest)
    have hgreen := decodeChannel_append (length_channelBytes ends.1 fun i => (index i).1) signed
      ends.2 (fun i => (index i).2) rest
    rw [List.nil_append] at hred
    simp only [pack, List.append_assoc, hred, hgreen, get_ofFn]
    rfl

/-- There is nothing to decode exactly if there are too few bytes. -/
theorem decode?_eq_none_iff (kind : BlockKind) (block : Bytes) :
    decode? kind block = none ↔ block.length < kind.size := by
  unfold decode?
  split
  · next hshort => exact iff_of_true rfl hshort
  · next hlong => exact iff_of_false nofun hlong

/-- **Packed blocks are read back**, for every kind of block, all end points and all indices:
every texel decodes to the entry of its own index for the end points.  There is nothing to
decode exactly if there are too few bytes, and further bytes are ignored. -/
theorem decode?_packed (kind : BlockKind) :
    (∀ ends index, (pack kind ends index).length = kind.size ∧
      decode? kind (pack kind ends index)
        = some (Vector.ofFn fun i => entry kind ends (index i))) ∧
    (∀ block, decode? kind block = none ↔ block.length < kind.size) ∧
    ∀ block, decode? kind block = decode? kind (block.take kind.size) := by
  refine ⟨fun ends index => ⟨length_pack kind ends index, ?_⟩, decode?_eq_none_iff kind, ?_⟩
  · rw [← List.append_nil (pack kind ends index)]
    exact decode?_pack_append kind ends index []
  · intro block
    by_cases hshort : block.length < kind.size
    · rw [List.take_of_length_le (by omega)]
    · have htake : (block.take kind.size).length = kind.size :=
        List.length_take_of_le (by omega)
      obtain ⟨ends, index, hpack⟩ := exists_pack htake
      -- both are the block that is packed, once with the bytes behind it
      have hwhole := decode?_pack_append kind ends index (block.drop kind.size)
      have hfront := decode?_pack_append kind ends index []
      rw [← hpack, List.take_append_drop] at hwhole
      rw [← hpack, List.append_nil] at hfront
      rw [hwhole, hfront]

end PixelPipeline.Block
