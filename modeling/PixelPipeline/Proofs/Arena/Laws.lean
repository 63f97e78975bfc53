import PixelPipeline.Proofs.Arena.Slots

/-!
# The laws of an arena

The interface of an arena, each law stated once.  The unit cache and the
resource store look at neither slots nor versions: their proofs use what this
module states, and would go through for any arena that keeps these laws.

* Resolution.  `get?_empty`, `get?_insert`, `get?_modify`, `get?_remove`,
  `get?_filter` and `get?_clear` say what each operation does to every handle.
* Fresh handles.  `insert_handle` names the handle that an insertion gives out,
  and `next_fresh` says that no arena has given it out before.
* Time.  `Ages` says that handles that were given out stay so and never come to
  mean another value; insertion, removal and filtering age an arena.
* Size.  `size_eq_length`: an arena has as many values as handles that resolve.
* Shape.  Which handle comes next is settled by the `shape` of an arena, which
  knows no values; `shape_insert` to `shape_clear` say how it moves.

All of this holds of a slot map whose versions never wrap.
-/

namespace PixelPipeline.Arena

variable {kind : ResourceKind} {α : Type} {a : Arena kind α} {h k : Handle kind} {v : α} {i : Nat}

/-- A handle that resolves was given out. -/
theorem get?_issued (hget : a.get? h = some v) : a.Issued h := by
  have hslot := get?_eq_some.mp hget
  exact ⟨hslot.1, _, hslot.2, Nat.le_refl _⟩

/-! ## The empty arena -/

/-- The empty arena is sound. -/
theorem sound_empty : (empty : Arena kind α).Sound where
  nodup := List.nodup_nil
  vacant := by simp [empty]

/-- Nothing resolves in the empty arena. -/
theorem get?_empty (h : Handle kind) : (empty : Arena kind α).get? h = none := by
  simp [get?, empty]

/-! ## Insertion -/

/-- An insertion gives out the next handle. -/
theorem insert_handle (a : Arena kind α) (v : α) : (a.insert v).2 = a.next := by
  unfold insert next
  cases a.free with
  | nil => rfl
  | cons i rest => rfl

/-- The next handle is one that was never given out. -/
theorem next_fresh (a : Arena kind α) : ¬ a.Issued a.next := by
  intro hissued
  obtain ⟨-, slot, hslot, hle⟩ := hissued
  unfold next at hslot hle
  cases hfree : a.free with
  | nil =>
    rw [hfree] at hslot
    simp at hslot
  | cons i rest =>
    rw [hfree] at hslot hle
    simp only [Nat.add_sub_cancel] at hslot
    simp only [hslot, Option.elim_some] at hle
    omega

/-- **After an insertion** the next handle resolves to the value, and every other one as before. -/
theorem get?_insert (hsound : a.Sound) (v : α) (k : Handle kind) :
    (a.insert v).1.get? k = if k = a.next then some v else a.get? k := by
  have hslots := slots_insert hsound v (k.index - 1)
  by_cases hindex : 0 < k.index ∧ k.index - 1 = a.next.index - 1
  · rw [if_pos hindex.2] at hslots
    rw [get?_of_slot hindex.1 hslots]
    have hpos := a.next_index_pos
    by_cases hk : k = a.next
    · simp [hk]
    · have hversion : a.next.version ≠ k.version := fun hversion =>
        hk (eq_of_slot_of_version hindex.1 hpos hindex.2 hversion.symm)
      rw [if_neg hversion, if_neg hk]
      -- nothing resolves at a vacant slot
      cases hget : a.get? k with
      | none => rfl
      | some w =>
        have hslot := (get?_eq_some.mp hget).2
        rw [hindex.2] at hslot
        exact (next_vacant hsound hslot).elim
  · have hk : k ≠ a.next := by
      intro hk
      exact hindex ⟨hk ▸ a.next_index_pos, by rw [hk]⟩
    rw [if_neg hk]
    by_cases hpos : 0 < k.index
    · rw [if_neg fun heq => hindex ⟨hpos, heq⟩] at hslots
      exact get?_eq_of_slots_eq hslots
    · have hzero : k.index = 0 := by omega
      rw [get?_of_index_zero hzero, get?_of_index_zero hzero]

/-- An insertion takes no handle back. -/
theorem Issued.insert (hissued : a.Issued h) (hsound : a.Sound) (v : α) :
    (a.insert v).1.Issued h := by
  obtain ⟨hpos, slot, hslot, hle⟩ := hissued
  refine ⟨hpos, ?_⟩
  rw [slots_insert hsound]
  by_cases hindex : h.index - 1 = a.next.index - 1
  · refine ⟨_, if_pos hindex, ?_⟩
    -- the version of a reused slot exceeds every version it has had
    have hfresh := a.next_fresh
    have : ¬ a.next.version ≤ slot.version := fun hnext =>
      hfresh ⟨a.next_index_pos, slot, hindex ▸ hslot, hnext⟩
    have hlt : slot.version < a.next.version := Nat.lt_of_not_le this
    exact Nat.le_of_lt (Nat.lt_of_le_of_lt hle hlt)
  · exact ⟨slot, by rw [if_neg hindex, hslot], hle⟩

/-- Insertions keep an arena sound. -/
theorem Sound.insert (hsound : a.Sound) (v : α) : (a.insert v).1.Sound := by
  have hslots := slots_insert hsound v
  cases hfree : a.free with
  | nil =>
    have hempty : (a.insert v).1.free = [] := by
      unfold Arena.insert
      rw [hfree]
    exact ⟨by simp [hempty], by simp [hempty]⟩
  | cons j rest =>
    have hnodup := hsound.nodup
    rw [hfree] at hnodup
    have hrest : (a.insert v).1.free = rest := by
      unfold Arena.insert
      rw [hfree]
    have hnext : a.next.index - 1 = j := by
      unfold next
      rw [hfree]
      rfl
    refine ⟨by rw [hrest]; exact hnodup.of_cons, fun i hi => ?_⟩
    rw [hrest] at hi
    have hij : i ≠ j := fun heq => (List.nodup_cons.mp hnodup).1 (heq ▸ hi)
    rw [hslots, hnext, if_neg hij]
    exact hsound.vacant i (by simp [hfree, hi])

/-! ## Changing a value -/

/-- The handle resolves to the changed value, if it resolved. -/
theorem get?_modify_self (h : Handle kind) (f : α → α) :
    (a.modify h f).get? h = (a.get? h).map f := by
  by_cases hpos : 0 < h.index
  · have hslots := slots_modify (a := a) h f hpos (h.index - 1)
    rw [if_pos rfl] at hslots
    cases hslot : a.slots[h.index - 1]? with
    | none =>
      rw [hslot] at hslots
      rw [get?_of_no_slot hslots, get?_of_no_slot hslot]
      rfl
    | some slot =>
      rw [hslot] at hslots
      rw [get?_of_slot hpos hslots, get?_of_slot hpos hslot]
      by_cases hversion : slot.version = h.version
      · simp [hversion]
      · simp [hversion]
  · have hzero : h.index = 0 := by omega
    rw [modify_of_index_zero hzero, get?_of_index_zero hzero]
    rfl

/-- The other versions of the slot that is changed resolve as before, and so does every
other slot. -/
theorem get?_modify_of_ne (f : α → α) (hk : k ≠ h) : (a.modify h f).get? k = a.get? k := by
  by_cases hpos : 0 < h.index
  · have hslots := slots_modify (a := a) h f hpos (k.index - 1)
    by_cases hindex : k.index - 1 = h.index - 1
    · by_cases hkpos : 0 < k.index
      · have hversion : h.version ≠ k.version := fun hversion =>
          hk (eq_of_slot_of_version hkpos hpos hindex hversion.symm)
        rw [if_pos hindex] at hslots
        cases hslot : a.slots[k.index - 1]? with
        | none =>
          rw [hslot] at hslots
          rw [get?_of_no_slot hslots, get?_of_no_slot hslot]
        | some slot =>
          rw [hslot] at hslots
          rw [get?_of_slot hkpos hslots, get?_of_slot hkpos hslot]
          by_cases hslotVersion : slot.version = h.version
          · simp [hslotVersion, hversion]
          · simp [hslotVersion]
      · have hzero : k.index = 0 := by omega
        rw [get?_of_index_zero hzero, get?_of_index_zero hzero]
    · rw [if_neg hindex] at hslots
      exact get?_eq_of_slots_eq hslots
  · rw [modify_of_index_zero (by omega)]

/-- **After a change** the handle resolves to the changed value, and every other one as before. -/
theorem get?_modify (h : Handle kind) (f : α → α) (k : Handle kind) :
    (a.modify h f).get? k = if k = h then (a.get? h).map f else a.get? k := by
  by_cases hk : k = h
  · rw [if_pos hk, hk]
    exact get?_modify_self h f
  · rw [if_neg hk]
    exact get?_modify_of_ne f hk

/-- A change of a value takes no handle back. -/
theorem Issued.modify (hissued : a.Issued k) (h : Handle kind) (f : α → α) :
    (a.modify h f).Issued k := by
  obtain ⟨hpos, slot, hslot, hle⟩ := hissued
  obtain ⟨content, hslot', -⟩ := slots_modify_some (h := h) (f := f) hslot
  exact ⟨hpos, _, hslot', hle⟩

/-- Changes of values keep an arena sound. -/
theorem Sound.modify (hsound : a.Sound) (h : Handle kind) (f : α → α) : (a.modify h f).Sound := by
  refine ⟨by rw [free_modify]; exact hsound.nodup, fun i hi => ?_⟩
  rw [free_modify] at hi
  obtain ⟨version, hvacant⟩ := hsound.vacant i hi
  obtain ⟨content, hslot, hnone⟩ := slots_modify_some (h := h) (f := f) hvacant
  rw [hnone rfl] at hslot
  exact ⟨version, hslot⟩

/-! ## Removal -/

/-- **After a removal** the handle does not resolve, and every other one does as before. -/
theorem get?_remove (h k : Handle kind) :
    (a.remove h).get? k = if k = h then none else a.get? k := by
  unfold remove
  cases hget : a.get? h with
  | none =>
    by_cases hk : k = h
    · simp [hk, hget]
    · simp [hk]
  | some v =>
    simp only [Option.isSome_some, if_true]
    rw [get?_release]
    by_cases hk : k = h
    · rw [if_pos (by rw [hk]), if_pos hk]
    · rw [if_neg hk]
      by_cases hindex : k.index - 1 = h.index - 1
      · rw [if_pos hindex]
        cases hgetk : a.get? k with
        | none => rfl
        | some w => exact (hk (eq_of_index_eq hgetk hget hindex)).elim
      · rw [if_neg hindex]

/-- A handle that was given out stays given out when a value is removed. -/
theorem Issued.remove (hissued : a.Issued k) (h : Handle kind) : (a.remove h).Issued k := by
  unfold Arena.remove
  by_cases hlive : (a.get? h).isSome = true
  · rw [if_pos hlive]
    exact hissued.release _
  · rw [if_neg hlive]
    exact hissued

/-- Removals keep an arena sound. -/
theorem Sound.remove (hsound : a.Sound) (h : Handle kind) : (a.remove h).Sound := by
  unfold Arena.remove
  cases hget : a.get? h with
  | none => simpa using hsound
  | some v =>
    rw [if_pos (by simp)]
    exact hsound.release (get?_eq_some.mp hget).2 (by simp)

/-! ## Filtering -/

/-- Filtering keeps an arena sound. -/
theorem Sound.filter (hsound : a.Sound) (keep : α → Bool) : (a.filter keep).Sound :=
  (sweep_spec hsound List.nodup_range fun _ _ => rfl).1

/-- A handle that was given out stays given out when values are filtered. -/
theorem Issued.filter (hissued : a.Issued h) (keep : α → Bool) : (a.filter keep).Issued h :=
  hissued.sweep _

/-- **After filtering** a handle resolves if its value is kept. -/
theorem get?_filter (hsound : a.Sound) (keep : α → Bool) (k : Handle kind) :
    (a.filter keep).get? k = (a.get? k).filter keep := by
  rw [filter_eq_sweep, (sweep_spec hsound List.nodup_range fun _ _ => rfl).2]
  cases hget : a.get? k with
  | none => simp
  | some v =>
    obtain ⟨hpos, hslot⟩ := get?_eq_some.mp hget
    have hlt := (Array.getElem?_eq_some_iff.mp hslot).1
    have hdrops : a.drops keep (k.index - 1) = !keep v := by
      unfold drops
      rw [hslot]
      rfl
    rw [hdrops]
    by_cases hkeep : keep v = true
    · rw [Option.filter_some_pos hkeep]
      simp [hkeep]
    · rw [Option.filter_some_neg (by simpa using hkeep)]
      simp [hkeep, hlt]

/-- Nothing resolves in an arena that was cleared. -/
theorem get?_clear (hsound : a.Sound) (k : Handle kind) : a.clear.get? k = none := by
  unfold clear
  rw [get?_filter hsound]
  simp

/-! ## Handles over time -/

/-- Handles that were given out stay given out, and never come to mean another
value. -/
structure Ages (a b : Arena kind α) : Prop where
  issued : ∀ h, a.Issued h → b.Issued h
  get? : ∀ h, a.Issued h → ∀ v, b.get? h = some v → a.get? h = some v

theorem Ages.refl (a : Arena kind α) : a.Ages a := ⟨fun _ => id, fun _ _ _ => id⟩

/-- An insertion ages an arena. -/
theorem Sound.ages_insert (hsound : a.Sound) (v : α) : a.Ages (a.insert v).1 where
  issued h hissued := hissued.insert hsound v
  get? h hissued w hget := by
    have hne : h ≠ a.next := by
      intro heq
      exact a.next_fresh (heq ▸ hissued)
    rw [get?_insert hsound, if_neg hne] at hget
    exact hget

/-- What resolves after a removal resolved before. -/
theorem get?_of_remove (a : Arena kind α) (hget : (a.remove h).get? k = some v) :
    a.get? k = some v := by
  rw [get?_remove] at hget
  by_cases hk : k = h
  · rw [if_pos hk] at hget
    cases hget
  · rw [if_neg hk] at hget
    exact hget

/-- A removal ages an arena. -/
theorem ages_remove (a : Arena kind α) (h : Handle kind) : a.Ages (a.remove h) where
  issued _ hissued := hissued.remove h
  get? _ _ _ hget := a.get?_of_remove hget

/-- Filtering ages an arena. -/
theorem Sound.ages_filter (hsound : a.Sound) (keep : α → Bool) : a.Ages (a.filter keep) where
  issued h hissued := hissued.filter keep
  get? h _ w hget := by
    rw [get?_filter hsound] at hget
    exact (Option.filter_eq_some_iff.mp hget).1

/-- A value that is inserted takes nothing away. -/
theorem Sound.get?_insert_of_live (hsound : a.Sound) {w : α} (hget : a.get? h = some w) (v : α) :
    (a.insert v).1.get? h = some w := by
  have hne : h ≠ a.next := by
    intro heq
    exact a.next_fresh (heq ▸ get?_issued hget)
  rw [get?_insert hsound, if_neg hne]
  exact hget

/-! ## The number of values -/

/-- An arena has as many values as handles that resolve. -/
theorem size_eq_length {handles : List (Handle kind)} (hnodup : handles.Nodup)
    (hlive : ∀ h, (a.get? h).isSome ↔ h ∈ handles) : a.size = handles.length := by
  let occupied (i : Nat) : Bool := a.slots[i]?.any fun slot => slot.content.isSome
  have hsize : a.size = ((List.range a.slots.size).filter occupied).length := by
    unfold size
    rw [← List.countP_eq_length_filter, ← Array.countP_toList, countP_eq_range]
    simp only [Array.length_toList, Array.getElem?_toList]
    rfl
  have hpositions : (handles.map fun h => h.index - 1).Nodup := by
    apply List.Nodup.map_on _ hnodup
    intro h hh k hk hindex
    obtain ⟨v, hv⟩ := Option.isSome_iff_exists.mp ((hlive h).mpr hh)
    obtain ⟨w, hw⟩ := Option.isSome_iff_exists.mp ((hlive k).mpr hk)
    exact eq_of_index_eq hv hw hindex
  have hperm : ((List.range a.slots.size).filter occupied).Perm
      (handles.map fun h => h.index - 1) := by
    apply (List.perm_ext_iff_of_nodup (List.nodup_range.filter _) hpositions).mpr
    intro i
    simp only [List.mem_filter, List.mem_range, List.mem_map]
    constructor
    · intro hi
      obtain ⟨slot, hslot, hcontent⟩ := (Option.any_eq_true _ _).mp hi.2
      obtain ⟨v, hv⟩ := Option.isSome_iff_exists.mp hcontent
      rcases slot with ⟨version, content⟩
      simp only at hv
      subst hv
      have hget : a.get? ⟨i + 1, version⟩ = some v :=
        get?_eq_some.mpr ⟨Nat.succ_pos i, hslot⟩
      exact ⟨⟨i + 1, version⟩, (hlive _).mp (by simp [hget]), rfl⟩
    · intro hi
      obtain ⟨h, hh, heq⟩ := hi
      obtain ⟨v, hv⟩ := Option.isSome_iff_exists.mp ((hlive h).mpr hh)
      have hslot := (get?_eq_some.mp hv).2
      rw [heq] at hslot
      refine ⟨(Array.getElem?_eq_some_iff.mp hslot).1, ?_⟩
      simp only [occupied, hslot]
      rfl
  rw [hsize, hperm.length_eq, List.length_map]

/-! ## The shape of an arena -/

/-- The shape knows the next handle. -/
theorem next_shape (a : Arena kind α) : a.shape.next = a.next := by
  unfold next shape
  cases a.free with
  | nil => simp
  | cons i rest =>
    simp only [Array.getElem?_map]
    cases a.slots[i]? with
    | none => rfl
    | some slot => rfl

/-- The shape moves the same way whatever is inserted. -/
theorem shape_insert (a : Arena kind α) (v : α) :
    (a.insert v).1.shape = (a.shape.insert ()).1 := by
  unfold insert shape
  cases a.free with
  | nil => simp
  | cons i rest =>
    simp only [Array.getElem?_map, Array.map_setIfInBounds]
    cases a.slots[i]? with
    | none => rfl
    | some slot => rfl

/-- A change of a value leaves the shape. -/
theorem shape_modify (a : Arena kind α) (h : Handle kind) (f : α → α) :
    (a.modify h f).shape = a.shape := by
  unfold shape
  rw [free_modify]
  congr 1
  apply Array.ext_getElem?
  intro i
  simp only [Array.getElem?_map]
  by_cases hpos : 0 < h.index
  · rw [slots_modify h f hpos]
    by_cases hi : i = h.index - 1
    · rw [if_pos hi]
      cases a.slots[i]? with
      | none => rfl
      | some slot =>
        by_cases hversion : slot.version = h.version
        · simp [hversion, Function.comp_def]
        · simp [hversion]
    · rw [if_neg hi]
  · rw [modify_of_index_zero (by omega)]

/-- The shape knows which handles resolve. -/
theorem isSome_get?_shape (a : Arena kind α) (h : Handle kind) :
    (a.shape.get? h).isSome = (a.get? h).isSome := by
  unfold get? shape
  by_cases hzero : h.index = 0
  · rw [if_pos hzero, if_pos hzero]
    rfl
  · rw [if_neg hzero, if_neg hzero]
    simp only [Array.getElem?_map]
    cases a.slots[h.index - 1]? with
    | none => rfl
    | some slot =>
      by_cases hversion : slot.version = h.version
      · simp [hversion]
      · simp [hversion]

/-- A removal moves the shape as it moves the arena. -/
theorem shape_remove (a : Arena kind α) (h : Handle kind) :
    (a.remove h).shape = a.shape.remove h := by
  unfold remove
  rw [isSome_get?_shape]
  by_cases hlive : (a.get? h).isSome = true
  · rw [if_pos hlive, if_pos hlive, shape_release]
  · rw [if_neg hlive, if_neg hlive]

/-- Clearing moves the shape as it moves the arena. -/
theorem shape_clear (a : Arena kind α) : a.clear.shape = a.shape.clear := by
  have hdrops : ∀ i, a.shape.drops (fun _ => false) i = a.drops (fun _ => false) i := by
    intro i
    unfold drops shape
    simp only [Array.getElem?_map]
    cases a.slots[i]? with
    | none => rfl
    | some slot =>
      rcases slot with ⟨version, content⟩
      cases content with
      | none => rfl
      | some value => rfl
  have hsweep : ∀ (positions : List Nat) (b : Arena kind α),
      (a.sweep (fun _ => false) b positions).shape
        = a.shape.sweep (fun _ => false) b.shape positions := by
    intro positions
    induction positions with
    | nil => exact fun b => rfl
    | cons i rest ih =>
      intro b
      unfold sweep at ih ⊢
      rw [List.foldl_cons, List.foldl_cons, ih, hdrops]
      by_cases hdrop : a.drops (fun _ => false) i = true
      · rw [if_pos hdrop, if_pos hdrop, shape_release]
      · rw [if_neg hdrop, if_neg hdrop]
  have hsize : a.shape.slots.size = a.slots.size := by
    unfold shape
    exact Array.size_map
  unfold clear
  rw [filter_eq_sweep, filter_eq_sweep, hsize]
  exact hsweep _ a

end PixelPipeline.Arena
