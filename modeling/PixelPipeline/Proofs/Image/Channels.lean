import PixelPipeline.Proofs.Image.Parts

/-!
# Writing colours

A colour is written channel by channel, in plain formats by replacing bytes and in
packed ones by masking and shifting.  Either way some bit fields of one number are set
one after the other (`setFields`).  The fields are apart, so the order does not matter:
a field that is set holds its code (`code_setFields`), and one that is apart from all of
them keeps what it held (`code_setFields_of_apart`).

A written texel is therefore known part by part (`code?_encode`): a channel that the mask
selects holds the code of its own value, whatever the others are, and every other part
is as it was.
-/

namespace PixelPipeline

namespace Format

open Bytes (wordOf overwrite)

variable {f : Format} {p : Part} {bytes new : Bytes} {color : Color} {mask : ColorMask}

/-! ## Fields one after the other -/

section Fields

variable {ι : Type} {selected : ι → Prop} [DecidablePred selected] {g : ι → BitField}
  {code : ι → Nat} {places : List ι} {word : Nat}

/-- The number with the selected fields set, in the order of the places. -/
def setFields (selected : ι → Prop) [DecidablePred selected] (g : ι → BitField) (code : ι → Nat)
    (places : List ι) (word : Nat) : Nat :=
  places.foldl (fun word i => if selected i then setField (g i) word (code i) else word) word

/-- The first field is set before the others. -/
theorem setFields_cons (i : ι) :
    setFields selected g code (i :: places) word
      = setFields selected g code places
          (if selected i then setField (g i) word (code i) else word) := rfl

/-- A field that is apart from those that are set keeps its code. -/
theorem code_setFields_of_apart {g' : BitField} (hcode : ∀ i, code i < 2 ^ (g i).width)
    (hapart : ∀ i ∈ places, selected i → g'.Apart (g i)) :
    g'.code (setFields selected g code places word) = g'.code word := by
  induction places generalizing word with
  | nil => rfl
  | cons i rest ih =>
    rw [setFields_cons, ih fun j hmem => hapart j (List.mem_cons_of_mem _ hmem)]
    by_cases hi : selected i
    · rw [if_pos hi, code_setField_of_apart (hcode i) (hapart i List.mem_cons_self hi)]
    · rw [if_neg hi]

/-- A field that is set holds its code, if the others are apart from it. -/
theorem code_setFields {i : ι} (hcode : ∀ i, code i < 2 ^ (g i).width)
    (hapart : ∀ j ∈ places, selected j → j ≠ i → (g i).Apart (g j)) (hmem : i ∈ places)
    (hselected : selected i) :
    (g i).code (setFields selected g code places word) = code i := by
  induction places generalizing word with
  | nil => cases hmem
  | cons j rest ih =>
    have hrest := fun j hmem => hapart j (List.mem_cons_of_mem _ hmem)
    rw [setFields_cons]
    by_cases hlater : i ∈ rest
    · exact ih hrest hlater
    · obtain rfl : i = j := (List.mem_cons.mp hmem).resolve_right hlater
      rw [code_setFields_of_apart hcode fun j hj hselected =>
          hrest j hj hselected fun heq => hlater (heq ▸ hj),
        if_pos hselected, code_setField (hcode i)]

end Fields

/-! ## Channels in their fields -/

section Layouts

variable {component : Component} {channels : Nat} {bgr : Bool} {fields : Vector BitField 4}
  {enabled : Vector Bool 4}

/-- The field of a component. -/
def componentField (component : Component) (i : Fin 4) : BitField :=
  ⟨8 * (i.val * component.size), 8 * component.size⟩

/-- An encoded component fits its bytes. -/
theorem wordOf_encode_lt (component : Component) (v : Binary32) :
    wordOf (component.encode v) < 2 ^ (8 * component.size) := by
  have hlt := Bytes.wordOf_lt (component.encode v)
  rwa [Bytes.pow_bytes, Component.encode, Bytes.length_wordBytes] at hlt

/-- An encoded field fits its width. -/
theorem encodeField_lt (g : BitField) (v : Binary32) : encodeField g v < 2 ^ g.width :=
  Nat.mod_lt _ (Nat.two_pow_pos _)

/-- Writing the components of a plain texel sets their fields. -/
theorem wordOf_encodePlain (hlength : component.size * channels ≤ bytes.length) :
    wordOf (encodePlain component channels bgr color enabled bytes)
      = setFields (fun i : Fin 4 => i.val < channels ∧ (reorder bgr enabled).get i = true)
          (componentField component)
          (fun i => wordOf (component.encode ((reorder bgr color).get i)))
          (List.finRange 4) (wordOf bytes) := by
  unfold encodePlain
  induction List.finRange 4 generalizing bytes with
  | nil => rfl
  | cons i rest ih =>
    rw [List.foldl_cons, setFields_cons]
    by_cases hi : i.val < channels ∧ (reorder bgr enabled).get i = true
    · have hle := Nat.le_trans (component_le _ hi.1 ((reorder bgr color).get i)) hlength
      have hword := Bytes.wordOf_overwrite hle
      have hsize : (component.encode ((reorder bgr color).get i)).length = component.size :=
        Bytes.length_wordBytes _ _
      rw [hsize] at hword
      rw [if_pos hi, if_pos hi, ih (by rw [Bytes.length_overwrite hle]; exact hlength), hword]
      rfl
    · rw [if_neg hi, if_neg hi, ih hlength]

/-- The code that a value is written as. -/
def channelCode (f : Format) (i : Fin 4) (v : Binary32) : Nat :=
  match f.layout with
  | .plain component _ _ => wordOf (component.encode v)
  | .packed fields => encodeField (fields.get i) v
  | _ => 0

/-- The code of a part when a colour was written. -/
def codeAfter (f : Format) (color : Color) (mask : ColorMask) (p : Part) (old : Nat) : Nat :=
  match p with
  | .channel i => if mask.channels.get i then f.channelCode i (color.get i) else old
  | _ => old

/-- A selected channel gets the code of the colour. -/
theorem codeAfter_of_selected {i : Fin 4} (hselected : mask.channels.get i = true) (old : Nat) :
    f.codeAfter color mask (.channel i) old = f.channelCode i (color.get i) := if_pos hselected

/-- What is no selected channel keeps its code. -/
theorem codeAfter_of_unselected (hp : ∀ i, p = .channel i → mask.channels.get i = false)
    (old : Nat) : f.codeAfter color mask p old = old := by
  cases p with
  | channel i => exact if_neg (Bool.eq_false_iff.mp (hp i rfl))
  | depth => rfl
  | stencil => rfl

/-- Components of a plain texel are written to the channels that the mask selects. -/
theorem code_encodePlain {g : BitField} (hlayout : f.layout = .plain component channels bgr)
    (hlength : component.size * channels ≤ bytes.length) (hfield : f.field? p = some g) :
    g.code (wordOf (encodePlain component channels bgr color mask.channels bytes))
      = f.codeAfter color mask p (g.code (wordOf bytes)) := by
  have hcode : ∀ i : Fin 4, wordOf (component.encode ((reorder bgr color).get i))
      < 2 ^ (componentField component i).width := fun i => wordOf_encode_lt component _
  -- the field of another channel's component is apart
  have hapart : ∀ i : Fin 4, i.val < channels → p ≠ .channel (place bgr i) →
      g.Apart (componentField component i) := by
    intro i hplace hne
    have hback : place bgr (place bgr i) = i := place_place bgr i
    have hother := field?_plain (i := place bgr i) hlayout (hback.symm ▸ hplace)
    rw [hback] at hother
    exact fields_apart hfield hother hne
  rw [wordOf_encodePlain hlength]
  by_cases hp : ∃ i, p = .channel i ∧ mask.channels.get i = true
  · obtain ⟨i, rfl, hselected⟩ := hp
    have hplace : (place bgr i).val < channels := by
      unfold field? at hfield
      rw [hlayout] at hfield
      exact (Option.ite_none_right_eq_some.mp hfield).1
    obtain rfl := Option.some.inj (hfield.symm.trans (field?_plain hlayout hplace))
    have hhere : (reorder bgr mask.channels).get (place bgr i) = true := by
      rw [get_reorder, place_place]
      exact hselected
    have hothers : ∀ j ∈ List.finRange 4,
        j.val < channels ∧ (reorder bgr mask.channels).get j = true → j ≠ place bgr i →
          (componentField component (place bgr i)).Apart (componentField component j) := by
      intro j _ hj hne
      refine hapart j hj.1 fun heq => hne ?_
      rw [Part.channel.inj heq, place_place]
    rw [codeAfter_of_selected hselected]
    refine (code_setFields hcode hothers (List.mem_finRange _) ⟨hplace, hhere⟩).trans ?_
    unfold channelCode
    rw [hlayout, get_reorder, place_place]
  · have hunselected : ∀ i, p = .channel i → mask.channels.get i = false := fun i heq =>
      Bool.eq_false_iff.mpr fun hselected => hp ⟨i, heq, hselected⟩
    rw [codeAfter_of_unselected hunselected]
    refine code_setFields_of_apart hcode fun j _ hj => hapart j hj.1 fun heq => hp ⟨_, heq, ?_⟩
    rw [← get_reorder]
    exact hj.2

/-- Fields of a packed word are set for the channels that the mask selects. -/
theorem code_encodePacked {g : BitField} (hlayout : f.layout = .packed fields)
    (hfield : f.field? p = some g) (word : Nat) :
    g.code (encodePacked fields color mask.channels word)
      = f.codeAfter color mask p (g.code word) := by
  have hcode : ∀ i, encodeField (fields.get i) (color.get i) < 2 ^ (fields.get i).width :=
    fun i => encodeField_lt _ _
  have hapart : ∀ i, (fields.get i).width ≠ 0 → p ≠ .channel i → g.Apart (fields.get i) :=
    fun i hwidth hne => fields_apart hfield (field?_packed hlayout hwidth) hne
  change g.code (setFields
    (fun i => (fields.get i).width ≠ 0 ∧ mask.channels.get i = true) fields.get
    (fun i => encodeField (fields.get i) (color.get i)) (List.finRange 4) word) = _
  by_cases hp : ∃ i, p = .channel i ∧ mask.channels.get i = true
  · obtain ⟨i, rfl, hselected⟩ := hp
    have hwidth : (fields.get i).width ≠ 0 := by
      unfold field? at hfield
      rw [hlayout] at hfield
      exact (Option.ite_none_left_eq_some.mp hfield).1
    obtain rfl := Option.some.inj (hfield.symm.trans (field?_packed hlayout hwidth))
    rw [codeAfter_of_selected hselected]
    refine (code_setFields hcode (fun j _ hj hne => hapart j hj.1 fun heq => ?_)
      (List.mem_finRange i) ⟨hwidth, hselected⟩).trans ?_
    · exact hne (Part.channel.inj heq).symm
    · unfold channelCode
      rw [hlayout]
  · have hunselected : ∀ i, p = .channel i → mask.channels.get i = false := fun i heq =>
      Bool.eq_false_iff.mpr fun hselected => hp ⟨i, heq, hselected⟩
    rw [codeAfter_of_unselected hunselected]
    exact code_setFields_of_apart hcode fun j _ hj => hapart j hj.1 fun heq => hp ⟨j, heq, hj.2⟩

end Layouts

/-! ## Whole colours -/

/-- The parts of a colour target are channels. -/
theorem exists_channel {g : BitField} (hrenderable : f.isColorRenderable = true)
    (hfield : f.field? p = some g) : ∃ i, p = .channel i := by
  unfold isColorRenderable at hrenderable
  unfold field? at hfield
  cases p with
  | channel i => exact ⟨i, rfl⟩
  | depth => cases hlayout : f.layout <;> simp [hlayout] at hrenderable hfield
  | stencil => cases hlayout : f.layout <;> simp [hlayout] at hrenderable hfield

/-- **A colour is written to the channels that the mask selects**, each from its own
value, and to no other part. -/
theorem code?_encode (hencode : f.encode color mask bytes = .ok new) (p : Part) :
    f.code? p new = (f.code? p bytes).map (f.codeAfter color mask p) := by
  unfold encode at hencode
  by_cases hshort : bytes.length < f.stride
  · rw [if_pos hshort] at hencode
    cases hencode
  rw [if_neg hshort] at hencode
  unfold stride at hshort
  unfold code?
  cases hfield : f.field? p with
  | none => rfl
  | some g =>
    rw [Option.map_some, Option.map_some, Option.map_some]
    refine congrArg some ?_
    have hinside := field_le hfield
    unfold stride at hinside
    cases hlayout : f.layout <;> rw [hlayout] at hencode hshort hinside
    case plain component channels bgr =>
      obtain rfl := Except.ok.inj hencode
      exact code_encodePlain hlayout (Nat.le_of_not_lt hshort) hfield
    case packed fields =>
      obtain rfl := Except.ok.inj hencode
      have hlong : 2 ≤ bytes.length := Nat.le_of_not_lt hshort
      rw [Bytes.code_overwrite hinside hlong, code_encodePacked hlayout hfield,
        Bytes.code_take hinside hlong]
    all_goals cases hencode

/-- Parts that are no selected channel stay. -/
theorem code?_encode_of_unselected (hencode : f.encode color mask bytes = .ok new)
    (hp : ∀ i, p = .channel i → mask.channels.get i = false) :
    f.code? p new = f.code? p bytes := by
  rw [code?_encode hencode]
  cases f.code? p bytes with
  | none => rfl
  | some old => exact congrArg some (codeAfter_of_unselected hp old)

end Format

end PixelPipeline
