import Mathlib.Data.List.Nodup
import PixelPipeline.Handle

/-!
# The slots of an arena

What each operation does to the slots and to the list of free ones.  In a
`Sound` arena the free slots are distinct and empty; a handle that may have been
given out (`Issued`) has a slot whose version is at least its own.

Proofs look at slots here and in `Proofs/Arena/Laws`, which derives the laws of
the interface from them.  Elsewhere slots appear only where a particular arena
is written down.
-/

namespace PixelPipeline.Arena

variable {kind : ResourceKind} {α : Type} {a : Arena kind α} {h k : Handle kind} {v : α} {i : Nat}

/-- The free slots are distinct slots without an occupant. -/
structure Sound (a : Arena kind α) : Prop where
  nodup : a.free.Nodup
  vacant : ∀ i ∈ a.free, ∃ version, a.slots[i]? = some ⟨version, none⟩

/-- The handle may have been given out: its slot has had an occupant of this
version or of a later one. -/
def Issued (a : Arena kind α) (h : Handle kind) : Prop :=
  0 < h.index ∧ ∃ slot, a.slots[h.index - 1]? = some slot ∧ h.version ≤ slot.version

/-- The handle that the next insertion gives out. -/
def next (a : Arena kind α) : Handle kind :=
  match a.free with
  | [] => ⟨a.slots.size + 1, 1⟩
  | i :: _ => ⟨i + 1, a.slots[i]?.elim 0 ArenaSlot.version + 2⟩

/-- A handle resolves to the occupant of its slot, if that has its version. -/
theorem get?_eq_some :
    a.get? h = some v ↔ 0 < h.index ∧ a.slots[h.index - 1]? = some ⟨h.version, some v⟩ := by
  unfold get?
  by_cases hzero : h.index = 0
  · simp [hzero]
  · have hpos : 0 < h.index := Nat.pos_of_ne_zero hzero
    rw [if_neg hzero]
    cases hslot : a.slots[h.index - 1]? with
    | none => simp
    | some slot =>
      rcases slot with ⟨version, content⟩
      by_cases hversion : version = h.version
      · simp [hversion, hpos]
      · simp [hversion]

/-- Resolution at a slot. -/
theorem get?_of_slot (hpos : 0 < h.index) {slot : ArenaSlot α}
    (hslot : a.slots[h.index - 1]? = some slot) :
    a.get? h = if slot.version = h.version then slot.content else none := by
  unfold get?
  rw [if_neg (Nat.ne_of_gt hpos), hslot]

/-- Resolution looks at the slot of the handle only. -/
theorem get?_eq_of_slots_eq {b : Arena kind α}
    (hslots : a.slots[h.index - 1]? = b.slots[h.index - 1]?) : a.get? h = b.get? h := by
  unfold get?
  rw [hslots]

/-- Slots count from one, so that index zero never resolves. -/
theorem get?_of_index_zero (hzero : h.index = 0) : a.get? h = none := if_pos hzero

/-- Nothing resolves past the slots. -/
theorem get?_of_no_slot (hslot : a.slots[h.index - 1]? = none) : a.get? h = none := by
  unfold get?
  rw [hslot]
  exact ite_self none

/-- A handle is its slot and its version. -/
theorem eq_of_slot_of_version (hpos : 0 < h.index) (hpos' : 0 < k.index)
    (hindex : h.index - 1 = k.index - 1) (hversion : h.version = k.version) : h = k := by
  obtain ⟨index, version⟩ := h
  obtain ⟨index', version'⟩ := k
  have hindex' : index = index' := Nat.pred_inj hpos hpos' hindex
  rw [hindex', show version = version' from hversion]

/-! ## Insertion -/

/-- The slots after an insertion differ in the slot of the next handle only. -/
theorem slots_insert (hsound : a.Sound) (v : α) (i : Nat) :
    (a.insert v).1.slots[i]?
      = if i = a.next.index - 1 then some ⟨a.next.version, some v⟩ else a.slots[i]? := by
  unfold insert next
  cases hfree : a.free with
  | nil => simp [Array.getElem?_push]
  | cons j rest =>
    have hmem : j ∈ a.free := by simp [hfree]
    obtain ⟨version, hvacant⟩ := hsound.vacant j hmem
    have hlt : j < a.slots.size := (Array.getElem?_eq_some_iff.mp hvacant).1
    simp only [Nat.add_sub_cancel, Array.getElem?_setIfInBounds, eq_comm (a := i)]
    by_cases hij : j = i
    · simp [hij, hij ▸ hlt]
    · simp [hij]

/-- The next handle has a slot. -/
theorem next_index_pos (a : Arena kind α) : 0 < a.next.index := by
  unfold next
  cases a.free with
  | nil => exact Nat.succ_pos _
  | cons i rest => exact Nat.succ_pos _

/-- The slot of the next handle has no occupant. -/
theorem next_vacant (hsound : a.Sound) (hslot : a.slots[a.next.index - 1]? = some ⟨i, some v⟩) :
    False := by
  unfold next at hslot
  cases hfree : a.free with
  | nil =>
    rw [hfree] at hslot
    simp at hslot
  | cons j rest =>
    have hmem : j ∈ a.free := by simp [hfree]
    obtain ⟨version, hvacant⟩ := hsound.vacant j hmem
    rw [hfree] at hslot
    simp [hvacant] at hslot

/-! ## Changing a value -/

/-- A change of a value touches the slot of the handle only, and only if the version is right. -/
theorem slots_modify (h : Handle kind) (f : α → α) (hpos : 0 < h.index) (i : Nat) :
    (a.modify h f).slots[i]?
      = if i = h.index - 1 then
          a.slots[i]?.map fun slot =>
            if slot.version = h.version then { slot with content := slot.content.map f } else slot
        else a.slots[i]? := by
  unfold modify
  rw [if_neg (Nat.ne_of_gt hpos), Array.getElem?_modify]
  by_cases hi : h.index - 1 = i
  · rw [if_pos hi, if_pos hi.symm]
  · rw [if_neg hi, if_neg (Ne.symm hi)]

/-- A handle without a slot changes nothing. -/
theorem modify_of_index_zero (hzero : h.index = 0) (f : α → α) : a.modify h f = a := by
  unfold modify
  rw [if_pos hzero]

/-- A change of a value frees no slot and takes none. -/
theorem free_modify (h : Handle kind) (f : α → α) : (a.modify h f).free = a.free := by
  unfold modify
  split <;> rfl

/-- A change of a value keeps the version of every slot. -/
theorem slots_modify_some {f : α → α} {slot : ArenaSlot α} (hslot : a.slots[i]? = some slot) :
    ∃ content, (a.modify h f).slots[i]? = some ⟨slot.version, content⟩ ∧
      (slot.content = none → content = none) := by
  by_cases hpos : 0 < h.index
  · rw [slots_modify h f hpos, hslot]
    by_cases hi : i = h.index - 1
    · by_cases hversion : slot.version = h.version
      · exact ⟨slot.content.map f, by simp [hi, hversion], fun hnone => by simp [hnone]⟩
      · exact ⟨slot.content, by simp [hi, hversion], id⟩
    · exact ⟨slot.content, by simp [hi], id⟩
  · rw [modify_of_index_zero (by omega)]
    exact ⟨slot.content, hslot, id⟩

/-! ## Removal -/

/-- Emptying a slot keeps its version and every other slot. -/
theorem slots_release (a : Arena kind α) (i j : Nat) :
    (a.release i).slots[j]?
      = if j = i then a.slots[j]?.map fun slot => { slot with content := none }
        else a.slots[j]? := by
  unfold release
  rw [Array.getElem?_modify]
  by_cases hij : i = j
  · rw [if_pos hij, if_pos hij.symm]
  · rw [if_neg hij, if_neg (Ne.symm hij)]

/-- No handle of an emptied slot resolves, and every other one does as before. -/
theorem get?_release (a : Arena kind α) (i : Nat) (k : Handle kind) :
    (a.release i).get? k = if k.index - 1 = i then none else a.get? k := by
  have hslots := slots_release a i (k.index - 1)
  by_cases hi : k.index - 1 = i
  · rw [if_pos hi] at hslots ⊢
    by_cases hpos : 0 < k.index
    · cases hslot : a.slots[k.index - 1]? with
      | none =>
        rw [hslot] at hslots
        exact get?_of_no_slot hslots
      | some slot =>
        rw [hslot] at hslots
        rw [get?_of_slot hpos hslots]
        simp
    · exact get?_of_index_zero (by omega)
  · rw [if_neg hi] at hslots ⊢
    exact get?_eq_of_slots_eq hslots

/-- Emptying a slot takes no handle back. -/
theorem Issued.release (hissued : a.Issued k) (i : Nat) : (a.release i).Issued k := by
  obtain ⟨hpos, slot, hslot, hle⟩ := hissued
  refine ⟨hpos, ?_⟩
  rw [slots_release, hslot]
  by_cases hi : k.index - 1 = i
  · exact ⟨_, if_pos hi, hle⟩
  · exact ⟨_, if_neg hi, hle⟩

/-- Emptying an occupied slot keeps an arena sound. -/
theorem Sound.release (hsound : a.Sound) {slot : ArenaSlot α} (hslot : a.slots[i]? = some slot)
    (hoccupied : slot.content ≠ none) : (a.release i).Sound := by
  have hfree : (a.release i).free = i :: a.free := rfl
  have hnotFree : i ∉ a.free := by
    intro hi
    obtain ⟨version, hvacant⟩ := hsound.vacant i hi
    rw [hslot] at hvacant
    cases hvacant
    exact hoccupied rfl
  refine ⟨by rw [hfree]; exact List.nodup_cons.mpr ⟨hnotFree, hsound.nodup⟩, fun j hj => ?_⟩
  rw [slots_release]
  rcases List.mem_cons.mp (hfree ▸ hj) with heq | hmem
  · exact ⟨slot.version, by rw [if_pos heq, heq, hslot]; rfl⟩
  · have hij : j ≠ i := fun heq => hnotFree (heq ▸ hmem)
    rw [if_neg hij]
    exact hsound.vacant j hmem

/-- Two handles that resolve and share a slot are the same. -/
theorem eq_of_index_eq {w : α} (hh : a.get? h = some v) (hk : a.get? k = some w)
    (hindex : h.index - 1 = k.index - 1) : h = k := by
  obtain ⟨hhpos, hhslot⟩ := get?_eq_some.mp hh
  obtain ⟨hkpos, hkslot⟩ := get?_eq_some.mp hk
  rw [hindex, hkslot] at hhslot
  have hversion : k.version = h.version := congrArg ArenaSlot.version (Option.some.inj hhslot)
  exact eq_of_slot_of_version hhpos hkpos hindex hversion.symm

/-! ## Filtering -/

/-- Whether filtering empties the slot at a position. -/
def drops (a : Arena kind α) (keep : α → Bool) (i : Nat) : Bool :=
  a.slots[i]?.any fun slot => slot.content.any fun value => !keep value

/-- Filtering, slot by slot over some positions. -/
def sweep (a : Arena kind α) (keep : α → Bool) (b : Arena kind α) (positions : List Nat) :
    Arena kind α :=
  positions.foldl (fun b i => if a.drops keep i then b.release i else b) b

/-- Filtering is a sweep over all slots. -/
theorem filter_eq_sweep (a : Arena kind α) (keep : α → Bool) :
    a.filter keep = a.sweep keep a (List.range a.slots.size) := rfl

variable {keep : α → Bool} {b : Arena kind α}

/-- A sweep takes no handle back. -/
theorem Issued.sweep (hissued : b.Issued h) (positions : List Nat) :
    (a.sweep keep b positions).Issued h := by
  induction positions generalizing b with
  | nil => exact hissued
  | cons i rest ih =>
    apply ih
    by_cases hdrops : a.drops keep i = true
    · simpa only [if_pos hdrops] using hissued.release i
    · simpa only [if_neg hdrops] using hissued

/-- A slot that filtering empties is occupied. -/
theorem exists_of_drops (hdrops : a.drops keep i = true) :
    ∃ slot, a.slots[i]? = some slot ∧ slot.content ≠ none := by
  obtain ⟨slot, hslot, hcontent⟩ := (Option.any_eq_true _ _).mp hdrops
  refine ⟨slot, hslot, fun hnone => ?_⟩
  rw [hnone] at hcontent
  cases hcontent

/-- Over positions whose slots are still those of the first arena, a sweep ends
the resolution of the handles whose values it drops. -/
theorem sweep_spec {positions : List Nat} (hsound : b.Sound) (hnodup : positions.Nodup)
    (hsame : ∀ i ∈ positions, b.slots[i]? = a.slots[i]?) :
    (a.sweep keep b positions).Sound ∧ ∀ k : Handle kind, (a.sweep keep b positions).get? k
      = if k.index - 1 ∈ positions ∧ a.drops keep (k.index - 1) then none else b.get? k := by
  induction positions generalizing b with
  | nil => exact ⟨hsound, fun k => by simp [sweep]⟩
  | cons i rest ih =>
    obtain ⟨hi, hrest⟩ := List.nodup_cons.mp hnodup
    have hsameRest : ∀ j ∈ rest, b.slots[j]? = a.slots[j]? := fun j hj =>
      hsame j (List.mem_cons_of_mem _ hj)
    by_cases hdrops : a.drops keep i = true
    · have hstep : a.sweep keep b (i :: rest) = a.sweep keep (b.release i) rest := by
        simp [sweep, hdrops]
      obtain ⟨slot, hslot, hoccupied⟩ := exists_of_drops hdrops
      rw [← hsame i List.mem_cons_self] at hslot
      have hsameReleased : ∀ j ∈ rest, (b.release i).slots[j]? = a.slots[j]? := by
        intro j hj
        have hij : j ≠ i := fun heq => hi (heq ▸ hj)
        rw [slots_release, if_neg hij]
        exact hsameRest j hj
      obtain ⟨hsound', hget⟩ := ih (hsound.release hslot hoccupied) hrest hsameReleased
      rw [hstep]
      refine ⟨hsound', fun k => ?_⟩
      rw [hget, get?_release]
      by_cases hk : k.index - 1 = i
      · simp [hk, hdrops]
      · simp [hk]
    · have hstep : a.sweep keep b (i :: rest) = a.sweep keep b rest := by
        simp [sweep, hdrops]
      obtain ⟨hsound', hget⟩ := ih hsound hrest hsameRest
      rw [hstep]
      refine ⟨hsound', fun k => ?_⟩
      rw [hget]
      by_cases hk : k.index - 1 = i
      · have hnotDrops : ¬ a.drops keep (k.index - 1) = true := hk ▸ hdrops
        simp [hnotDrops]
      · simp [hk]

/-! ## The number of values -/

/-- What a list counts can be counted over its positions. -/
theorem countP_eq_range {β : Type} (p : β → Bool) (l : List β) :
    l.countP p = (List.range l.length).countP fun i => l[i]?.any p := by
  induction l with
  | nil => rfl
  | cons x rest ih =>
    rw [List.length_cons, List.range_succ_eq_map, List.countP_cons, List.countP_cons, ih,
      List.countP_map]
    rfl

/-! ## The shape of an arena -/

/-- The versions and the occupancy of the slots, without the values. -/
def shape (a : Arena kind α) : Arena kind Unit :=
  ⟨a.slots.map fun slot => ⟨slot.version, slot.content.map fun _ => ()⟩, a.free⟩

/-- Emptying a slot moves the shape as it moves the arena. -/
theorem shape_release (a : Arena kind α) (i : Nat) : (a.release i).shape = a.shape.release i := by
  unfold shape release
  congr 1
  apply Array.ext_getElem?
  intro j
  simp only [Array.getElem?_map, Array.getElem?_modify]
  by_cases hij : i = j
  · rw [if_pos hij, if_pos hij]
    cases a.slots[j]? with
    | none => rfl
    | some slot => rfl
  · rw [if_neg hij, if_neg hij]

end PixelPipeline.Arena
