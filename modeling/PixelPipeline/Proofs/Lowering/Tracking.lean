import Mathlib.Data.List.Forall2
import PixelPipeline.Proofs.Ir.Runs
import PixelPipeline.Proofs.Lowering.Storage
import PixelPipeline.Proofs.Machine.Path
import PixelPipeline.Proofs.Machine.State

/-!
# The machine tracks the reference run

Both sides keep their arrays on a stack, and they push and pop at the same
moments, so the address of an array is its slot.  A scalar parameter and a
variable have a register each.  `Tracks` says that the machine holds whatever
the reference run has assigned; where nothing was assigned, the machine may hold
anything, which is why frames can be used again without being cleared.

Registers below `first` belong to the callers, those from `first` to `top` to
the activation, and those from `top` on are free.
-/

namespace PixelPipeline.Machine

open Ir.Reference

/-- A parameter's binding holds what the parameter stands for. -/
inductive Binding.Means (M : State) (registers slots : Nat) : Binding → Actual → Prop
  | slot {i : Nat} (lt : i < slots) : Means M registers slots (.slot i) (.array i)
  | register {r : Nat} (lt : r < registers) :
      Means M registers slots (.register r) (.scalar (M.register r))

/-- What a binding holds depends on the registers in use only. -/
theorem Binding.Means.mono {M N : State} {registers more slots moreSlots : Nat} {b : Binding}
    {a : Actual} (h : b.Means M registers slots a)
    (same : ∀ q, q < registers → N.register q = M.register q) (hregisters : registers ≤ more)
    (hslots : slots ≤ moreSlots) : b.Means N more moreSlots a := by
  cases h with
  | slot lt => exact .slot (Nat.lt_of_lt_of_le lt hslots)
  | @register r lt =>
      rw [← same r lt]
      exact .register (Nat.lt_of_lt_of_le lt hregisters)

end PixelPipeline.Machine

namespace PixelPipeline.Ir

open Machine Reference

/-- The result satisfies a condition, unless the run stops because it reads
something unassigned. -/
def Assured {α : Type} (x : Except Stuck α) (P : α → Prop) : Prop :=
  match x with
  | .ok a => P a
  | .error stuck => stuck = .unassigned

namespace Assured

variable {α β : Type} {x : Except Stuck α} {g : α → Except Stuck β} {P Q : α → Prop}
  {R : β → Prop}

/-- A condition on a result carries over to what follows. -/
theorem bind (h : Assured x P) (k : ∀ a, P a → Assured (g a) R) : Assured (x >>= g) R := by
  cases x with
  | ok a => exact k a h
  | error stuck => exact h

theorem mono (h : Assured x P) (k : ∀ a, P a → Q a) : Assured x Q := by
  cases x with
  | ok a => exact k a h
  | error stuck => exact h

/-- Reading what may be unassigned. -/
theorem assigned {content : Option Binary32} {P : Binary32 → Prop}
    (h : ∀ v, content = some v → P v) : Assured (Reference.assigned content) P := by
  cases content with
  | none => rfl
  | some v => exact h v rfl

end Assured

/-! ## Arrays and parameters -/

/-- What is related element by element is related at each position. -/
theorem forall₂_getElem? {α β : Type} {R : α → β → Prop} {as : List α} {bs : List β}
    (h : List.Forall₂ R as bs) {i : Nat} {a : α} (ha : as[i]? = some a) :
    ∃ b, bs[i]? = some b ∧ R a b := by
  induction h generalizing i with
  | nil => simp at ha
  | @cons a' b' as bs related _ ih =>
      cases i with
      | zero =>
          obtain rfl : a' = a := by simpa using ha
          exact ⟨b', rfl, related⟩
      | succ i =>
          obtain ⟨b, hb, hrelated⟩ := ih (by simpa using ha)
          exact ⟨b, by simpa using hb, hrelated⟩

/-- The slots hold what is assigned in the arrays of the same number. -/
structure MemoryMatches (mem : Memory) (M : State) : Prop where
  size_le : mem.size ≤ maxSlots
  lane_eq : ∀ address, address < mem.size → ∀ lane, lane < 4 → ∀ v,
    mem.lanes address lane = some v → M.lane address lane = v

namespace MemoryMatches

variable {mem : Memory} {M N : State}

/-- The slots match as long as the machine keeps them. -/
theorem keeps {limit : Nat} (h : MemoryMatches mem M) (k : M.Keeps limit N) :
    MemoryMatches mem N :=
  ⟨h.size_le, fun address ha lane hl v hv => by
    rw [k.lane]
    exact h.lane_eq address ha lane hl v hv⟩

/-- A write goes to the lane of the slot. -/
theorem write (h : MemoryMatches mem M) {address lane : Nat} (ha : address < mem.size)
    (hl : lane < 4) (v : Binary32) :
    MemoryMatches (mem.write address lane v) (M.setLane address lane v) := by
  refine ⟨h.size_le, fun a hlt l hl4 w hw => ?_⟩
  by_cases heq : a = address ∧ l = lane
  · obtain ⟨rfl, rfl⟩ := heq
    simp only [Memory.write, and_self, if_true, Option.some.injEq] at hw
    rw [← hw]
    exact State.lane_setLane_self M v (Nat.lt_of_lt_of_le ha h.size_le) hl
  · simp only [Memory.write, if_neg heq] at hw
    rw [State.lane_setLane_ne]
    · exact h.lane_eq a hlt l hl4 w hw
    · by_cases ha' : a = address
      · exact .inr fun hl' => heq ⟨ha', hl'⟩
      · exact .inl ha'

/-- New arrays have nothing assigned that could differ. -/
theorem extend (h : MemoryMatches mem M) {count : Nat} (hfit : mem.size + count ≤ maxSlots) :
    MemoryMatches (mem.extend count) M := by
  refine ⟨hfit, fun a hlt l hl v hv => ?_⟩
  simp only [Memory.extend] at hv
  split at hv
  · cases hv
  · exact h.lane_eq a (by omega) l hl v hv

/-- With fewer arrays the slots match as before. -/
theorem shrink (h : MemoryMatches mem M) {size : Nat} (hle : size ≤ mem.size) :
    MemoryMatches (mem.shrink size) M :=
  ⟨Nat.le_trans hle h.size_le, fun a hlt l hl v hv =>
    h.lane_eq a (Nat.lt_of_lt_of_le hlt hle) l hl v hv⟩

end MemoryMatches

/-- The bindings of a list of parameters. -/
abbrev Bound (M : State) (registers slots : Nat) : List Binding → List Actual → Prop :=
  List.Forall₂ (Binding.Means M registers slots)

theorem Bound.mono {M N : State} {registers more slots moreSlots : Nat} {bs : List Binding}
    {as : List Actual} (h : Bound M registers slots bs as)
    (same : ∀ q, q < registers → N.register q = M.register q) (hregisters : registers ≤ more)
    (hslots : slots ≤ moreSlots) : Bound N more moreSlots bs as :=
  h.imp fun _ _ means => means.mono same hregisters hslots

/-- A parameter's binding holds what the parameter stands for. -/
theorem Bound.get {M : State} {registers slots : Nat} {bs : List Binding} {as : List Actual}
    (h : Bound M registers slots bs as) {i : Nat} {b : Binding} (hb : bs[i]? = some b) :
    ∃ a, as[i]? = some a ∧ b.Means M registers slots a :=
  forall₂_getElem? h hb

/-! ## Activations -/

/-- The machine holds what an activation has been given and has assigned. -/
structure Tracks (f : Frame) (first top : Nat) (a : Activation) (s : Store) (M : State) : Prop where
  routine : f.routine = a.routine
  vars : f.vars = List.range' first a.routine.vars
  temps : f.temps = List.range' a.base a.routine.temps
  varsFit : ∀ i, i < a.routine.vars → first + i < top ∧ first + i < maxRegisters
  first_le : first ≤ top
  tempsFit : a.base + a.routine.temps ≤ s.memory.size
  params : Bound M first s.memory.size f.params a.actuals
  var_eq : ∀ i v, i < a.routine.vars → s.vars i = some v → M.register (first + i) = v
  memory : MemoryMatches s.memory M

namespace Tracks

variable {f : Frame} {first top : Nat} {a : Activation} {s : Store} {M N : State}

/-- The machine tracks the activation as long as it keeps what is below the top. -/
theorem keeps (h : Tracks f first top a s M) (k : M.Keeps top N) : Tracks f first top a s N :=
  { h with
    params := h.params.mono (k.mono h.first_le).register (Nat.le_refl _) (Nat.le_refl _)
    var_eq := fun i v hi hv => by
      rw [k.register _ (h.varsFit i hi).1]
      exact h.var_eq i v hi hv
    memory := h.memory.keeps k }

/-- An array that the frame knows is the array of that address. -/
theorem address (h : Tracks f first top a s M) {array : ArrayRef} {slot lane : Nat}
    (hslot : f.slotOf array lane = .ok slot) :
    a.address array = .ok slot ∧ slot < s.memory.size ∧ lane < 4 := by
  obtain ⟨lanes, harray, hlane⟩ := Frame.slotOf_eq_ok.mp hslot
  cases array with
  | param i =>
      obtain ⟨kind, -, hparam, rfl⟩ := Frame.array?_param_eq_ok.mp harray
      obtain ⟨actual, hactual, means⟩ := h.params.get hparam
      cases means with
      | slot lt =>
          refine ⟨by simp only [Activation.address, hactual], lt, ?_⟩
          cases kind <;> simp only [ParamKind.lanes] at hlane <;> omega
  | temp i =>
      obtain ⟨htemp, rfl⟩ := Frame.array?_temp_eq_ok.mp harray
      rw [h.temps, List.getElem?_eq_some_iff] at htemp
      obtain ⟨hi, rfl⟩ := htemp
      have hi : i < a.routine.temps := by simpa using hi
      have fit := h.tempsFit
      refine ⟨by simp [Activation.address, hi], ?_, hlane⟩
      rw [List.getElem_range']
      omega

/-- A scalar parameter's register holds its value. -/
theorem scalar (h : Tracks f first top a s M) {i r : Nat} (hr : f.registerOfParam i = .ok r) :
    a.scalar i = .ok (M.register r) ∧ r < first := by
  obtain ⟨actual, hactual, means⟩ := h.params.get (Frame.registerOfParam_eq_ok.mp hr)
  cases means with
  | register lt => exact ⟨by simp only [Activation.scalar, hactual], lt⟩

/-- Variables lie side by side from `first` on. -/
theorem var (h : Tracks f first top a s M) {i r : Nat} (hr : f.registerOfVar i = .ok r) :
    i < a.routine.vars ∧ r = first + i := by
  have hvar := Frame.registerOfVar_eq_ok.mp hr
  rw [h.vars, List.getElem?_eq_some_iff] at hvar
  obtain ⟨hi, rfl⟩ := hvar
  exact ⟨by simpa using hi, by simp⟩

/-- Assigning to a variable. -/
theorem setVar (h : Tracks f first top a s M) {i : Nat} (hi : i < a.routine.vars) (v : Binary32) :
    Tracks f first top a (s.setVar i v) (M.setRegister (first + i) v) := by
  have keeps : M.Keeps first (M.setRegister (first + i) v) := .setRegister (Nat.le_add_right _ _) v
  refine { h with
    params := h.params.mono keeps.register (Nat.le_refl _) (Nat.le_refl _)
    var_eq := fun j w hj hw => ?_
    memory := h.memory.keeps keeps }
  by_cases heq : j = i
  · subst heq
    simp only [Store.setVar, if_true, Option.some.injEq] at hw
    rw [← hw]
    exact State.register_setRegister_self M v (h.varsFit j hj).2
  · simp only [Store.setVar, if_neg heq] at hw
    rw [State.register_setRegister_ne M v (by omega)]
    exact h.var_eq j w hj hw

/-- Assigning to a lane. -/
theorem write (h : Tracks f first top a s M) {slot lane : Nat} (hslot : slot < s.memory.size)
    (hlane : lane < 4) (v : Binary32) :
    Tracks f first top a { s with memory := s.memory.write slot lane v } (M.setLane slot lane v) :=
  { h with
    params := h.params.mono (fun _ _ => rfl) (Nat.le_refl _) (Nat.le_refl _)
    var_eq := fun i w hi hw => h.var_eq i w hi hw
    memory := h.memory.write hslot hlane v }

end Tracks

end PixelPipeline.Ir
