import Mathlib.Algebra.Ring.Nat
import PixelPipeline.Proofs.Image.Addressing

/-!
# Which images are created

A description is measured level by level, and what measuring gives is decided by two
numbers (`ImageDesc.measure_eq`): the bytes of a layer of the first level, which has the
largest layers, and the bytes of all levels.  So creating an image is one case
distinction (`Image.create_of_validate`), and a created image has the description that
was asked for, a description that images can have, and the bytes that it takes
(`Image.create_eq_ok`).

The total is compared with the word before it is used, the product behind a single
layer is not.  A description whose first layers leave the word is therefore neither
created nor refused (`Image.create_size`, `Image.create_overflow`).
-/

namespace PixelPipeline

/-! ## Results in sequence -/

/-- The results of a sequence are those of its last part. -/
theorem bind_eq_ok {ε α β : Type} {x : Except ε α} {f : α → Except ε β} {b : β} :
    x >>= f = .ok b ↔ ∃ a, x = .ok a ∧ f a = .ok b := by
  cases x with
  | error fault => simp [bind, Except.bind]
  | ok a => simp [bind, Except.bind]

/-- A check that throws lets through what does not meet it. -/
theorem guard_eq_ok {ε α : Type} {p : Prop} [Decidable p] {fault : ε} {rest : Unit → Except ε α}
    {a : α} :
    (if p then (throw fault : Except ε Unit) >>= rest else rest ()) = .ok a
      ↔ ¬ p ∧ rest () = .ok a := by
  by_cases hp : p
  · simp [hp, throw, throwThe, MonadExceptOf.throw, bind, Except.bind]
  · simp [hp]

/-! ## Measuring -/

namespace Format

variable {f : Format} {width height depth width' height' depth' : Nat}

/-- More texels take no fewer blocks. -/
theorem blocksAcross_mono (f : Format) {size size' : Nat} (hle : size ≤ size') :
    f.blocksAcross size ≤ f.blocksAcross size' :=
  Nat.div_le_div_right (Nat.sub_le_sub_right (Nat.add_le_add_right hle _) 1)

/-- A region takes no more than a region around it. -/
theorem regionSize_mono (f : Format) (hwidth : width ≤ width') (hheight : height ≤ height')
    (hdepth : depth ≤ depth') :
    f.regionSize width height depth ≤ f.regionSize width' height' depth' :=
  Nat.mul_le_mul_right _ (Nat.mul_le_mul
    (Nat.mul_le_mul (f.blocksAcross_mono hwidth) (f.blocksAcross_mono hheight)) hdepth)

end Format

namespace ImageDesc

variable {d : ImageDesc} {level : Nat}

/-- The first level has the largest layers. -/
theorem layerSize_le_first (d : ImageDesc) (level : Nat) :
    d.layerSize level ≤ d.layerSize 0 := by
  have hshrink : ∀ size, max (size >>> level) 1 ≤ max (size >>> 0) 1 := by
    intro size
    have hle : size >>> level ≤ size := Nat.shiftRight_le size level
    rw [Nat.shiftRight_zero]
    omega
  refine d.format.regionSize_mono (hshrink _) (hshrink _) ?_
  unfold levelExtent
  simp only
  split
  · exact hshrink _
  · exact Nat.le_refl 1

/-- An accepted description has at least one level. -/
theorem levels_pos (hflaw : d.flaw? = none) : 0 < d.levels := by
  refine Nat.pos_of_ne_zero fun hzero => ?_
  unfold flaw? at hflaw
  simp only [hzero, true_or, if_true] at hflaw
  split at hflaw
  · cases hflaw
  · cases hflaw

/-- The first layer is a part of the image. -/
theorem layerSize_le_byteSize (hflaw : d.flaw? = none) : d.layerSize 0 ≤ d.byteSize := by
  have hend := d.layerEnd_le 0 (layers_pos hflaw)
  have hmono : d.levelStart (0 + 1) ≤ d.byteSize := d.levelStart_mono (levels_pos hflaw)
  omega

/-- The bytes of an image, level by level: in every layer the blocks across, the blocks down
and the slices, each of them with the bytes of a storage unit. -/
theorem byteSize_eq_sum (d : ImageDesc) :
    d.byteSize = ((List.range d.levels).map fun level =>
      let e := d.levelExtent level
      d.layers * (d.format.blocksAcross e.x * d.format.blocksAcross e.y * e.z
        * d.format.stride)).sum := by
  unfold byteSize
  induction d.levels with
  | zero => rfl
  | succ level ih =>
    rw [List.range_succ, List.map_append, List.sum_append, ← ih, List.map_singleton,
      List.sum_singleton]
    exact congrArg (d.levelStart level + ·) (Nat.mul_comm _ _)

/-- As long as a layer is a word, only the total decides. -/
theorem measureLevel_eq (hlayer : d.layerSize level < 2 ^ 64) (total : Nat) :
    d.measureLevel total level = if total + d.levelSize level < 2 ^ 64
      then .ok (total + d.levelSize level) else .error (.invalidImage (.desc .tooLarge d)) := by
  have hregion : d.format.regionSize? (d.levelExtent level).x (d.levelExtent level).y
      (d.levelExtent level).z = some (d.layerSize level) := if_pos hlayer
  unfold measureLevel
  simp only [hregion]
  rfl

/-- Measuring reaches a level if the word reaches it. -/
theorem foldlM_measureLevel (hlayers : ∀ level, d.layerSize level < 2 ^ 64) (levels : Nat) :
    (List.range levels).foldlM d.measureLevel 0 = if d.levelStart levels < 2 ^ 64
      then .ok (d.levelStart levels) else .error (.invalidImage (.desc .tooLarge d)) := by
  induction levels with
  | zero => rfl
  | succ level ih =>
    rw [List.range_succ, List.foldlM_append, ih]
    by_cases hstart : d.levelStart level < 2 ^ 64
    · rw [if_pos hstart]
      simp only [List.foldlM_cons, List.foldlM_nil, bind_pure]
      exact measureLevel_eq (hlayers level) _
    · -- a level that starts past the word ends past it
      have hend : ¬ d.levelStart (level + 1) < 2 ^ 64 := fun hlt =>
        hstart (Nat.lt_of_le_of_lt (d.levelStart_mono (Nat.le_succ level)) hlt)
      rw [if_neg hstart, if_neg hend]
      rfl

/-- **Measuring is decided by the first layer and the total.** -/
theorem measure_eq (hlevels : 0 < d.levels) :
    d.measure = if 2 ^ 64 ≤ d.layerSize 0 then .error .overflow
      else if d.byteSize < 2 ^ 64 then .ok d.byteSize
      else .error (.invalidImage (.desc .tooLarge d)) := by
  unfold measure
  by_cases hfirst : 2 ^ 64 ≤ d.layerSize 0
  · obtain ⟨rest, hrange⟩ : ∃ rest, List.range d.levels = 0 :: rest :=
      ⟨_, by rw [← Nat.succ_pred_eq_of_pos hlevels, List.range_succ_eq_map]⟩
    have hregion : d.format.regionSize? (d.levelExtent 0).x (d.levelExtent 0).y
        (d.levelExtent 0).z = none := if_neg (Nat.not_lt.mpr hfirst)
    rw [if_pos hfirst, hrange, List.foldlM_cons]
    unfold measureLevel
    simp only [hregion]
    rfl
  · rw [if_neg hfirst]
    exact foldlM_measureLevel (fun level =>
      Nat.lt_of_le_of_lt (d.layerSize_le_first level) (Nat.lt_of_not_le hfirst)) d.levels

/-- What is accepted has no flaw. -/
theorem flaw?_of_validate (hvalidate : d.validate = .ok ()) : d.flaw? = none := by
  unfold validate at hvalidate
  cases hflaw : d.flaw? with
  | none => rfl
  | some flaw =>
    rw [hflaw] at hvalidate
    cases hvalidate

/-- What is refused is refused with a report. -/
theorem ne_overflow_of_validate {fault : Fault} (hvalidate : d.validate = .error fault) :
    fault ≠ .overflow := by
  rintro rfl
  unfold validate at hvalidate
  split at hvalidate
  · cases hvalidate
  · split at hvalidate
    · cases hvalidate
    · cases hvalidate

end ImageDesc

/-! ## Creation -/

namespace Image

variable {d : ImageDesc} {i : Image} {room : Nat}

/-- What is refused is not created. -/
theorem create_of_refused {fault : Fault} (hvalidate : d.validate = .error fault) :
    Image.create room d = .error fault := by
  unfold create
  rw [hvalidate]
  rfl

/-- **Creating an image is one case distinction**, on the bytes of a layer of the first level
and the bytes of all levels. -/
theorem create_of_validate (hvalidate : d.validate = .ok ()) :
    Image.create room d =
      if 2 ^ 64 ≤ d.layerSize 0 then .error .overflow
      else if 2 ^ 64 ≤ d.byteSize then .error (.invalidImage (.desc .tooLarge d))
      else if min room maxAllocation < d.byteSize then .error (.outOfMemory d.byteSize)
      else .ok ⟨d, Array.replicate d.byteSize 0⟩ := by
  have hflaw := ImageDesc.flaw?_of_validate hvalidate
  unfold create
  rw [hvalidate, ImageDesc.measure_eq (ImageDesc.levels_pos hflaw)]
  simp only [bind, Except.bind]
  by_cases hfirst : 2 ^ 64 ≤ d.layerSize 0
  · rw [if_pos hfirst, if_pos hfirst]
  rw [if_neg hfirst, if_neg hfirst]
  by_cases hfits : d.byteSize < 2 ^ 64
  · rw [if_pos hfits, if_neg (Nat.not_le.mpr hfits)]
    by_cases hroom : min room maxAllocation < d.byteSize
    · simp only [if_pos hroom]
      rfl
    · simp only [if_neg hroom]
      rfl
  · rw [if_neg hfits, if_pos (Nat.le_of_not_lt hfits)]

/-- Images are created of accepted descriptions whose size can be allocated. -/
theorem create_eq_ok_iff : Image.create room d = .ok i ↔
    d.validate = .ok () ∧ d.byteSize ≤ min room maxAllocation ∧
      i = ⟨d, Array.replicate d.byteSize 0⟩ := by
  cases hvalidate : d.validate with
  | error fault =>
    rw [create_of_refused hvalidate]
    exact iff_of_false nofun nofun
  | ok u =>
    have hfirst := ImageDesc.layerSize_le_byteSize (ImageDesc.flaw?_of_validate hvalidate)
    have hword : min room maxAllocation < 2 ^ 64 :=
      Nat.lt_of_le_of_lt (Nat.min_le_right _ _) (by decide)
    rw [create_of_validate hvalidate]
    by_cases hroom : d.byteSize ≤ min room maxAllocation
    · rw [if_neg (by omega), if_neg (by omega), if_neg (Nat.not_lt.mpr hroom)]
      exact ⟨fun heq => ⟨rfl, hroom, (Except.ok.inj heq).symm⟩,
        fun ⟨_, _, heq⟩ => congrArg Except.ok heq.symm⟩
    · rw [if_pos (Nat.lt_of_not_le hroom)]
      refine iff_of_false ?_ fun h => hroom h.2.1
      split
      · exact nofun
      split
      · exact nofun
      · exact nofun

/-- The program stops at accepted descriptions whose first layers leave the word. -/
theorem create_eq_overflow_iff : Image.create room d = .error .overflow ↔
    d.validate = .ok () ∧ 2 ^ 64 ≤ d.layerSize 0 := by
  cases hvalidate : d.validate with
  | error fault =>
    rw [create_of_refused hvalidate]
    exact iff_of_false
      (fun heq => ImageDesc.ne_overflow_of_validate hvalidate (Except.error.inj heq)) nofun
  | ok u =>
    rw [create_of_validate hvalidate]
    by_cases hfirst : 2 ^ 64 ≤ d.layerSize 0
    · rw [if_pos hfirst]
      exact iff_of_true rfl ⟨rfl, hfirst⟩
    · rw [if_neg hfirst]
      refine iff_of_false ?_ fun h => hfirst h.2
      split
      · exact nofun
      split
      · exact nofun
      · exact nofun

/-- A created image has the description that was asked for, and is stored. -/
theorem create_eq_ok (hcreate : Image.create room d = .ok i) : i.desc = d ∧ i.Stored := by
  obtain ⟨hvalidate, hroom, rfl⟩ := create_eq_ok_iff.mp hcreate
  have hword : maxAllocation < 2 ^ 64 := by decide
  refine ⟨rfl, ImageDesc.flaw?_of_validate hvalidate, Array.size_replicate, ?_⟩
  change d.byteSize < 2 ^ 64
  omega

/-- **A description is created with its exact size or refused, unless its first layers leave
the word.**  Then, and only then, the program stops.  An image is created exactly when its
size can be allocated, and it has as many bytes as its levels add up to. -/
theorem create_size (room : Nat) (d : ImageDesc) :
    (Image.create room d = .error .overflow ↔ d.validate = .ok () ∧ 2 ^ 64 ≤ d.layerSize 0) ∧
    ((∃ i, Image.create room d = .ok i) ↔
      d.validate = .ok () ∧ d.byteSize ≤ min room maxAllocation) ∧
    ∀ i, Image.create room d = .ok i → i.desc = d ∧
      i.data.size = ((List.range d.levels).map fun level =>
        let e := d.levelExtent level
        d.layers * (d.format.blocksAcross e.x * d.format.blocksAcross e.y * e.z
          * d.format.stride)).sum := by
  refine ⟨create_eq_overflow_iff, ?_, fun i hcreate => ?_⟩
  · simp only [create_eq_ok_iff, exists_and_left, exists_eq, and_true]
  · obtain ⟨rfl, hstored⟩ := create_eq_ok hcreate
    exact ⟨rfl, hstored.size.trans i.desc.byteSize_eq_sum⟩

/-- A volume whose only layer has exactly `2 ^ 64` bytes. -/
def wideVolume : ImageDesc := .d3 .r8Unorm (2 ^ 31) (2 ^ 31) 4

/-- Such a volume is neither created nor refused, whatever room there is. -/
theorem create_overflow : wideVolume.flaw? = none ∧ wideVolume.byteSize = 2 ^ 64 ∧
    ∀ room, Image.create room wideVolume = .error .overflow :=
  ⟨by decide, by decide, fun _ => rfl⟩

end Image

end PixelPipeline
