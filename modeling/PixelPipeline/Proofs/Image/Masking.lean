import PixelPipeline.Proofs.Image.Channels

/-!
# Colours behind a mask

What a colour write leaves of a buffer follows from the codes of the parts.  Every bit
that changes lies in a channel that the format has and the mask selects.  A channel that
was written reads back as a value of its own channel of the colour alone
(`storedChannel`), the others as before.  Writing twice with one colour is writing once
with both masks.

A buffer is written in place, component by component, and what was written before a fault
would stay.  `encodeInPlace` is that sequence of steps; it never fails after its first
write, so it comes to the same as `encode` (`run_encodeInPlace`).

* `encode_masked` — all this of every format, and what becomes of a buffer that cannot be
  written.
-/

namespace PixelPipeline

/-- The channels of either mask. -/
def ColorMask.union (mask mask' : ColorMask) : ColorMask := ⟨mask.bits ||| mask'.bits⟩

/-- A union selects what either mask selects. -/
theorem ColorMask.get_channels_union (mask mask' : ColorMask) (i : Fin 4) :
    (mask.union mask').channels.get i = (mask.channels.get i || mask'.channels.get i) := by
  unfold channels
  rw [Color.get_ofFn, Color.get_ofFn, Color.get_ofFn]
  unfold has union
  rw [UInt8.toNat_or, Nat.testBit_or]

namespace Format

open Bytes (wordOf overwrite)

variable {f : Format} {bytes new : Bytes} {color : Color} {mask mask' : ColorMask}

/-! ## In place -/

/-- Replaces the selected channels of a texel. -/
def encodeLayout (f : Format) (color : Color) (mask : ColorMask) :
    ExceptT Fault (StateM Bytes) Unit :=
  match f.layout with
  | .plain component channels bgr =>
    forM (List.finRange 4) fun i =>
      if i.val < channels ∧ (reorder bgr mask.channels).get i then
        modifyThe Bytes fun bytes =>
          overwrite bytes (i * component.size) (component.encode ((reorder bgr color).get i))
      else return ()
  | .packed fields =>
    modifyThe Bytes fun bytes => overwrite bytes 0 (Bytes.wordBytes 2
      (encodePacked fields color mask.channels (wordOf (bytes.take 2))))
  | _ => throw (.unsupportedTarget f .color)

/-- Writes the selected channels of a colour into a buffer, which keeps what was written
before a fault. -/
def encodeInPlace (f : Format) (color : Color) (mask : ColorMask) :
    ExceptT Fault (StateM Bytes) Unit := do
  let bytes ← getThe Bytes
  if bytes.length < f.stride then throw (.invalidImage (.shortTexel f.stride))
  else f.encodeLayout color mask

/-- Steps that only replace bytes leave what is folded from them. -/
theorem run_forM_modify {ι : Type} {chosen : ι → Prop} [DecidablePred chosen]
    (step : ι → Bytes → Bytes) (places : List ι) (bytes : Bytes) :
    (forM places fun i => if chosen i then modifyThe Bytes (step i) else return () :
        ExceptT Fault (StateM Bytes) Unit).run.run bytes
      = (.ok (), places.foldl (fun bytes i => if chosen i then step i bytes else bytes) bytes) := by
  induction places generalizing bytes with
  | nil => rfl
  | cons i rest ih =>
    rw [List.forM_cons, List.foldl_cons, ExceptT.run_bind, StateT.run_bind]
    by_cases hi : chosen i
    · rw [if_pos hi, if_pos hi]
      exact ih (step i bytes)
    · rw [if_neg hi, if_neg hi]
      exact ih bytes

/-- **Writing in place comes to the same**: a fault leaves the buffer as it was. -/
theorem run_encodeInPlace (f : Format) (color : Color) (mask : ColorMask) (bytes : Bytes) :
    (f.encodeInPlace color mask).run.run bytes =
      match f.encode color mask bytes with
      | .ok new => (.ok (), new)
      | .error fault => (.error fault, bytes) := by
  have hguard : (f.encodeInPlace color mask).run.run bytes
      = (if bytes.length < f.stride then throw (.invalidImage (.shortTexel f.stride))
          else f.encodeLayout color mask : ExceptT Fault (StateM Bytes) Unit).run.run bytes := rfl
  rw [hguard]
  unfold encode encodeLayout
  by_cases hshort : bytes.length < f.stride
  · rw [if_pos hshort, if_pos hshort]
    rfl
  · rw [if_neg hshort, if_neg hshort]
    cases f.layout with
    | plain component channels bgr => exact run_forM_modify _ _ _
    | packed fields => rfl
    | depth32 => rfl
    | depth24Stencil8 => rfl
    | stencil8 => rfl
    | block kind => rfl

/-! ## What a write leaves -/

/-- Whether the bit belongs to a channel that the format has and the mask selects. -/
def Selects (f : Format) (mask : ColorMask) (k : Nat) : Prop :=
  ∃ i g, mask.channels.get i = true ∧ f.field? (.channel i) = some g ∧
    g.shift ≤ k ∧ k < g.shift + g.width

/-- What a channel reads as after a value was written to it. -/
def storedChannel (f : Format) (i : Fin 4) (v : Binary32) : Binary32 :=
  f.channelOf i (some (f.channelCode i v))

/-- What becomes of a buffer when a colour is written behind a mask. -/
structure Masked (f : Format) (color : Color) (mask : ColorMask) (bytes new : Bytes) : Prop where
  length : new.length = bytes.length
  behind : new.drop f.stride = bytes.drop f.stride
  bits : ∀ k, (wordOf new).testBit k ≠ (wordOf bytes).testBit k → f.Selects mask k
  channels : ∃ old after, f.decode? bytes = some old ∧ f.decode? new = some after ∧
    ∀ i, after.get i =
      if mask.channels.get i = true ∧ (f.field? (.channel i)).isSome
      then f.storedChannel i (color.get i) else old.get i

/-- A bit that changes belongs to a part that was written. -/
theorem selects_of_testBit_ne (hrenderable : f.isColorRenderable = true)
    (hlong : f.stride ≤ bytes.length) (hencode : f.encode color mask bytes = .ok new)
    (hlength : new.length = bytes.length) (hdrop : new.drop f.stride = bytes.drop f.stride)
    {k : Nat} (hbit : (wordOf new).testBit k ≠ (wordOf bytes).testBit k) : f.Selects mask k := by
  have hinside : k < 8 * f.stride := Nat.lt_of_not_le fun hle =>
    hbit (Bytes.testBit_of_drop_eq hlength hlong hdrop hle)
  obtain ⟨p, g, hfield, hstart, hend⟩ :=
    exists_field (isCompressed_of_isColorRenderable hrenderable) hinside
  obtain ⟨i, rfl⟩ := exists_channel hrenderable hfield
  have hselected : mask.channels.get i = true := by
    cases hmask : mask.channels.get i with
    | true => rfl
    | false =>
      have hkept := code?_encode_of_unselected (p := .channel i) hencode
        fun j hj => Part.channel.inj hj ▸ hmask
      exact (hbit (testBit_of_code?_eq hfield hkept hstart hend)).elim
  exact ⟨i, g, hselected, hfield, hstart, hend⟩

/-- What a channel reads as, from what it was written as. -/
theorem channelOf_encode (hencode : f.encode color mask bytes = .ok new) (i : Fin 4) :
    f.channelOf i (f.code? (.channel i) new) =
      if mask.channels.get i = true ∧ (f.field? (.channel i)).isSome
      then f.storedChannel i (color.get i) else f.channelOf i (f.code? (.channel i) bytes) := by
  rw [code?_encode hencode]
  unfold code?
  cases hfield : f.field? (.channel i) with
  | none =>
    rw [if_neg (by simp)]
    rfl
  | some g =>
    rw [Option.map_some, Option.map_some]
    cases hmask : mask.channels.get i with
    | true =>
      rw [if_pos ⟨rfl, rfl⟩, codeAfter_of_selected hmask]
      rfl
    | false =>
      rw [if_neg fun hboth => Bool.false_ne_true hboth.1,
        codeAfter_of_unselected fun j hj => Part.channel.inj hj ▸ hmask]

/-- **A masked write** changes the selected channels, each from its own value, and nothing
else. -/
theorem masked_of_encode (hrenderable : f.isColorRenderable = true)
    (hlong : f.stride ≤ bytes.length) (hencode : f.encode color mask bytes = .ok new) :
    f.Masked color mask bytes new := by
  obtain ⟨new', hencode', hlength, hdrop⟩ := encode_frame hrenderable hlong color mask
  obtain rfl := Except.ok.inj (hencode'.symm.trans hencode)
  have hlong' : f.stride ≤ new'.length := hlength ▸ hlong
  obtain ⟨old, hold, -⟩ := Option.map_eq_some_iff.mp (get_decode? hrenderable hlong 0)
  obtain ⟨after, hafter, -⟩ := Option.map_eq_some_iff.mp (get_decode? hrenderable hlong' 0)
  refine ⟨hlength, hdrop, fun k hbit =>
    selects_of_testBit_ne hrenderable hlong hencode hlength hdrop hbit,
    old, after, hold, hafter, fun i => ?_⟩
  have hget := get_decode? hrenderable hlong i
  have hget' := get_decode? hrenderable hlong' i
  rw [hold, Option.map_some] at hget
  rw [hafter, Option.map_some] at hget'
  rw [Option.some.inj hget, Option.some.inj hget', channelOf_encode hencode]

/-- The code after two writes of a colour. -/
theorem codeAfter_codeAfter (p : Part) (old : Nat) :
    f.codeAfter color mask' p (f.codeAfter color mask p old)
      = f.codeAfter color (mask.union mask') p old := by
  cases p with
  | channel i =>
    unfold codeAfter
    simp only [ColorMask.get_channels_union]
    cases mask.channels.get i <;> cases mask'.channels.get i <;> rfl
  | depth => rfl
  | stencil => rfl

/-- **Writing twice with one colour** is writing once with both masks. -/
theorem encode_twice (hrenderable : f.isColorRenderable = true) (hlong : f.stride ≤ bytes.length)
    (hencode : f.encode color mask bytes = .ok new) (mask' : ColorMask) :
    f.encode color mask' new = f.encode color (mask.union mask') bytes := by
  obtain ⟨hlength, hdrop, -, -⟩ := masked_of_encode hrenderable hlong hencode
  obtain ⟨last, hlast, hlength', hdrop'⟩ :=
    encode_frame hrenderable (hlength ▸ hlong) color mask'
  obtain ⟨once, honce, hlength'', hdrop''⟩ :=
    encode_frame hrenderable hlong color (mask.union mask')
  rw [hlast, honce]
  refine congrArg Except.ok (eq_of_codes_of_drop (isCompressed_of_isColorRenderable hrenderable)
    (hlength'.trans (hlength.trans hlength''.symm)) (hlength'' ▸ hlong)
    (hdrop'.trans (hdrop.trans hdrop''.symm)) fun p => ?_)
  rw [code?_encode hlast, code?_encode hencode, code?_encode honce, Option.map_map]
  exact congrFun (congrArg Option.map (funext fun old => codeAfter_codeAfter p old)) _

/-- A buffer that is too short, or a format that holds no colours. -/
theorem encode_eq_error (hno : ¬ (f.isColorRenderable = true ∧ f.stride ≤ bytes.length))
    (color : Color) (mask : ColorMask) :
    ∃ fault, f.encode color mask bytes = .error fault := by
  unfold encode
  by_cases hshort : bytes.length < f.stride
  · exact ⟨_, if_pos hshort⟩
  · rw [if_neg hshort]
    have hrenderable : ¬ f.isColorRenderable = true :=
      fun hfits => hno ⟨hfits, Nat.le_of_not_lt hshort⟩
    unfold isColorRenderable at hrenderable
    cases hlayout : f.layout <;> rw [hlayout] at hrenderable
    case plain => exact (hrenderable rfl).elim
    case packed => exact (hrenderable rfl).elim
    all_goals exact ⟨_, rfl⟩

/-- **Colours behind a mask**: every colour target is written as `Masked` says in any
buffer that holds a texel, also in place, and a second mask adds to the first; any other
buffer stays. -/
theorem encode_masked (f : Format) (color : Color) (mask : ColorMask) (bytes : Bytes) :
    if f.isColorRenderable = true ∧ f.stride ≤ bytes.length then
      ∃ new, f.encode color mask bytes = .ok new ∧
        (f.encodeInPlace color mask).run.run bytes = (.ok (), new) ∧
        f.Masked color mask bytes new ∧
        ∀ mask', f.encode color mask' new = f.encode color (mask.union mask') bytes
    else
      ∃ fault, f.encode color mask bytes = .error fault ∧
        (f.encodeInPlace color mask).run.run bytes = (.error fault, bytes) := by
  split
  case isTrue hwritable =>
    obtain ⟨hrenderable, hlong⟩ := hwritable
    obtain ⟨new, hencode, -, -⟩ := encode_frame hrenderable hlong color mask
    refine ⟨new, hencode, ?_, masked_of_encode hrenderable hlong hencode,
      encode_twice hrenderable hlong hencode⟩
    rw [run_encodeInPlace, hencode]
  case isFalse hno =>
    obtain ⟨fault, hencode⟩ := encode_eq_error hno color mask
    refine ⟨fault, hencode, ?_⟩
    rw [run_encodeInPlace, hencode]

end Format

end PixelPipeline
