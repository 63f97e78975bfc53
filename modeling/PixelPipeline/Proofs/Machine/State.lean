import PixelPipeline.Machine.Run

/-!
# Reading what was written

Registers, slots and lanes of the machine after a write.  Writes beyond the
frame are lost, so each lemma asks for a register or slot of the machine.
`Keeps` says what a stretch of code that only computes leaves alone.
-/

namespace PixelPipeline.Machine.State

open Ir

section

variable (s : State) {r q i k lane other : Nat} (v : Binary32) (c : Color)

theorem register_setRegister_self (h : r < maxRegisters) : (s.setRegister r v).register r = v := by
  simp [setRegister, register, h]

theorem register_setRegister_ne (h : q ≠ r) :
    (s.setRegister r v).register q = s.register q := by
  simp only [setRegister, register, Vector.getElem?_setIfInBounds]
  rw [if_neg (Ne.symm h)]

@[simp] theorem slots_setRegister : (s.setRegister r v).slots = s.slots := rfl

@[simp] theorem registers_setSlot : (s.setSlot i c).registers = s.registers := rfl

@[simp] theorem registers_setLane : (s.setLane i lane v).registers = s.registers := rfl

@[simp] theorem register_setSlot : (s.setSlot i c).register r = s.register r := rfl

@[simp] theorem register_setLane : (s.setLane i lane v).register r = s.register r := rfl

@[simp] theorem slot_setRegister : (s.setRegister r v).slot i = s.slot i := rfl

@[simp] theorem lane_setRegister : (s.setRegister r v).lane i lane = s.lane i lane := rfl

theorem slot_setSlot_self (h : i < maxSlots) : (s.setSlot i c).slot i = c := by
  simp [setSlot, slot, h]

theorem slot_setSlot_ne (h : k ≠ i) : (s.setSlot i c).slot k = s.slot k := by
  simp only [setSlot, slot, Vector.getElem?_setIfInBounds]
  rw [if_neg (Ne.symm h)]

theorem lane_setLane_self (hi : i < maxSlots) (hlane : lane < 4) :
    (s.setLane i lane v).lane i lane = v := by
  rw [setLane, State.lane, slot_setSlot_self _ _ hi, Vector.getElem?_setIfInBounds]
  simp [hlane]

theorem lane_setLane_ne (h : k ≠ i ∨ other ≠ lane) :
    (s.setLane i lane v).lane k other = s.lane k other := by
  by_cases hk : k = i
  · subst hk
    have hne : lane ≠ other := by
      rintro rfl
      simp at h
    by_cases hslot : k < maxSlots
    · rw [setLane, State.lane, slot_setSlot_self _ _ hslot, Vector.getElem?_setIfInBounds,
        if_neg hne, State.lane]
    · have hsame : s.setLane k lane v = s := by
        simp [setLane, setSlot, Vector.setIfInBounds_eq_of_size_le (Nat.le_of_not_lt hslot)]
      rw [hsame]
  · rw [setLane, State.lane, slot_setSlot_ne _ _ hk, State.lane]

/-- The contents of a slot are its four lanes. -/
theorem lane_eq (hlane : lane < 4) : s.lane i lane = (s.slot i)[lane] := by
  simp [State.lane, hlane]

end

/-! ## What a stretch of code leaves alone -/

/-- Nothing changed but registers from `limit` on. -/
structure Keeps (limit : Nat) (M N : State) : Prop where
  slots : N.slots = M.slots
  register : ∀ q, q < limit → N.register q = M.register q

namespace Keeps

variable {limit lower : Nat} {M N O : State}

theorem refl (limit : Nat) (M : State) : M.Keeps limit M := ⟨rfl, fun _ _ => rfl⟩

theorem trans (h : M.Keeps limit N) (k : N.Keeps limit O) : M.Keeps limit O :=
  ⟨k.slots.trans h.slots, fun q hq => (k.register q hq).trans (h.register q hq)⟩

theorem mono (h : M.Keeps limit N) (hle : lower ≤ limit) : M.Keeps lower N :=
  ⟨h.slots, fun q hq => h.register q (Nat.lt_of_lt_of_le hq hle)⟩

theorem lane (h : M.Keeps limit N) (i lane : Nat) : N.lane i lane = M.lane i lane := by
  rw [State.lane, State.lane, State.slot, State.slot, h.slots]

theorem setRegister {r : Nat} (h : limit ≤ r) (v : Binary32) :
    M.Keeps limit (M.setRegister r v) :=
  ⟨rfl, fun q hq => State.register_setRegister_ne M v (by omega)⟩

end Keeps

end PixelPipeline.Machine.State
