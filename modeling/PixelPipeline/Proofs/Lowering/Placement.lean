import PixelPipeline.Ir.Lowering
import PixelPipeline.Proofs.Machine.Path

/-!
# Where placed code leads

Placing a routine's blocks one behind the other turns each target into a
displacement.  Read from the position of its operation, a displacement leads to
the start of the block that was named, or right behind the routine's code: a
routine that stands somewhere in a program is its blocks one behind the other,
each target aimed at what it names.

* `segment_place` — a placed routine is its blocks, aimed;
* `segment_block` — each block stands at its start;
* `blockStart_mono` — later blocks start later.
-/

namespace PixelPipeline.Ir

open Machine

/-- Where a block starts, counted from the start of the routine. -/
def blockStart (blocks : List Fragment) (index : Nat) : Nat :=
  (blocks.take index).flatten.length

/-- Where a displacement leads from a position. -/
def aimBy (pos : Nat) (displacement : Int) : Nat := ((pos : Int) + displacement).toNat

/-- Where the targets of a routine lead that stands at `start`. -/
def aimIn (start : Nat) (blocks : List Fragment) (pos : Nat) : Target → Nat
  | .within displacement => aimBy pos displacement
  | .block index => start + blockStart blocks index
  | .exit => start + blocks.flatten.length

/-- The starts of the blocks, and the end of the code for what is no block. -/
theorem blockStarts_getD (start : Nat) (blocks : List Fragment) (index : Nat) :
    (blockStarts start blocks)[index]?.getD (start + blocks.flatten.length)
      = start + blockStart blocks index := by
  induction blocks generalizing start index with
  | nil => simp [blockStarts, blockStart]
  | cons b rest ih =>
      cases index with
      | zero => simp [blockStarts, blockStart]
      | succ index =>
          have := ih (start + b.length) index
          simp only [blockStarts, blockStart, List.getElem?_cons_succ, List.flatten_cons,
            List.length_append, List.take_succ_cons, ← Nat.add_assoc] at *
          exact this

/-- Later blocks start no earlier. -/
theorem blockStart_mono (blocks : List Fragment) {i j : Nat} (h : i ≤ j) :
    blockStart blocks i ≤ blockStart blocks j := by
  obtain ⟨d, rfl⟩ := Nat.exists_eq_add_of_le h
  rw [blockStart, blockStart, List.take_add, List.flatten_append, List.length_append]
  exact Nat.le_add_right _ _

/-- The blocks before one, the block, and the blocks behind it. -/
theorem flatten_eq_of_getElem? {blocks : List Fragment} {index : Nat} {fragment : Fragment}
    (h : blocks[index]? = some fragment) :
    blocks.flatten
      = (blocks.take index).flatten ++ (fragment ++ (blocks.drop (index + 1)).flatten) := by
  obtain ⟨hlt, rfl⟩ := List.getElem?_eq_some_iff.mp h
  calc blocks.flatten = (blocks.take index ++ blocks.drop index).flatten := by
        rw [List.take_append_drop]
    _ = _ := by rw [List.drop_eq_getElem_cons hlt, List.flatten_append, List.flatten_cons]

variable {code : Array (Op Nat)} {start : Nat} {blocks : List Fragment}

/-- A target of a placed routine leads to what it names. -/
theorem aimBy_displacement {source : Nat} (t : Target) :
    aimBy (start + source)
        (t.displacement (blockStarts 0 blocks) blocks.flatten.length source)
      = aimIn start blocks (start + source) t := by
  cases t with
  | within d => rfl
  | block i =>
      have := blockStarts_getD 0 blocks i
      simp only [Nat.zero_add] at this
      simp only [Target.displacement, aimBy, aimIn, this]
      omega
  | exit =>
      simp only [Target.displacement, aimBy, aimIn]
      omega

/-- A placed routine is its blocks one behind the other, each target aimed at
what it names. -/
theorem segment_place (h : Segment code aimBy start (place blocks)) :
    Segment code (aimIn start blocks) start blocks.flatten := by
  intro i op hop
  have := segment_mapIdx.mp h i op hop
  rw [this]
  congr 2
  funext t
  simp only [Nat.add_sub_cancel_left]
  exact aimBy_displacement t

/-- Each block stands at its start. -/
theorem segment_block {aim : Nat → Target → Nat} (h : Segment code aim start blocks.flatten)
    {index : Nat} {fragment : Fragment} (hget : blocks[index]? = some fragment) :
    Segment code aim (start + blockStart blocks index) fragment := by
  rw [flatten_eq_of_getElem? hget] at h
  exact (segment_append.mp (segment_append.mp h).2).1

/-- Placing keeps the number of operations. -/
theorem length_place (blocks : List Fragment) : (place blocks).length = blocks.flatten.length := by
  simp [place]

/-- Code that is embedded in another routine keeps its targets. -/
theorem segment_embed {caller : List Fragment} {callerStart : Nat} {placed : PlacedCode} :
    Segment code (aimIn callerStart caller) start (embed placed) ↔
      Segment code aimBy start placed :=
  segment_map

/-- Embedding keeps the number of operations. -/
theorem length_embed (placed : PlacedCode) : (embed placed).length = placed.length := by
  simp [embed]

end PixelPipeline.Ir
