import Mathlib.Data.List.Basic
import Mathlib.Logic.ExistsUnique
import PixelPipeline.State.Fingerprint

/-!
# Digests tell neighbours apart

Folding a byte permutes the states of the digest: exclusive-or with the byte can be taken
back, and so can the multiplication by the prime, which is odd.  So the state before a
byte follows from the state behind it (`byte_state_inj`), and so does the byte if the
state before it is known (`byte_inj`).  Two byte strings that differ in one position lead
to different states behind it, and these stay different to the end (`hashBytes_ne`).

The encoding of a pipeline state gives every field a byte of its own, at a fixed position,
and is zero elsewhere (`encoding_eq`).  A field that changes alone changes one byte.

* `fingerprint_ne_of_neighbours` — one position, or one field, changes the digest.
-/

namespace PixelPipeline

/-- The lists have the same length and differ in exactly one position. -/
def DifferOnce {α : Type} (l l' : List α) : Prop :=
  l.length = l'.length ∧ ∃! i : Nat, l[i]? ≠ l'[i]?

/-- What comes before and behind the position is the same. -/
theorem DifferOnce.split {α : Type} {l l' : List α} (hdiffer : DifferOnce l l') :
    ∃ front a a' back, a ≠ a' ∧ l = front ++ a :: back ∧ l' = front ++ a' :: back := by
  obtain ⟨hlength, i, hi, hunique⟩ := hdiffer
  induction l generalizing l' i with
  | nil =>
    obtain rfl := List.length_eq_zero_iff.mp hlength.symm
    exact (hi rfl).elim
  | cons a rest ih =>
    cases l' with
    | nil => cases hlength
    | cons a' rest' =>
      have hlength' : rest.length = rest'.length := Nat.succ.inj hlength
      by_cases hhead : a = a'
      · -- the heads agree, so the position is one of the tails
        cases i with
        | zero => exact (hi (congrArg some hhead)).elim
        | succ i =>
          obtain ⟨front, b, b', back, hne, rfl, rfl⟩ := ih hlength' i hi fun j hj =>
            Nat.succ.inj (hunique (j + 1) hj)
          exact ⟨a :: front, b, b', back, hne, rfl, by rw [hhead]; rfl⟩
      · have hzero : 0 = i := hunique 0 fun heq => hhead (Option.some.inj heq)
        have htails : rest = rest' := List.ext_getElem? fun j => by
          refine Classical.byContradiction fun hne => ?_
          have hposition := hunique (j + 1) hne
          omega
        exact ⟨[], a, a', rest, hhead, rfl, by rw [htails]; rfl⟩

/-! ## Digests -/

namespace Fnv32

variable {h h' : Fnv32} {b b' : UInt8} {bs bs' : List UInt8}

/-- What undoes the multiplication by the prime. -/
def primeInverse : UInt32 := 0x359c449b

/-- The prime has an inverse among the words. -/
theorem prime_mul_primeInverse : prime * primeInverse = 1 := by decide

/-- Multiplying by the prime loses nothing. -/
theorem mul_prime_inj {v w : UInt32} (heq : v * prime = w * prime) : v = w := by
  have hundone := congrArg (· * primeInverse) heq
  simpa only [UInt32.mul_assoc, prime_mul_primeInverse, UInt32.mul_one] using hundone

/-- The state before a byte follows from the one behind it. -/
theorem byte_state_inj (heq : h.byte b = h'.byte b) : h = h' := by
  have hmixed := mul_prime_inj (congrArg state heq)
  have hstate := (BitVec.xor_left_inj b.toUInt32.toBitVec).mp (congrArg UInt32.toBitVec hmixed)
  exact congrArg Fnv32.mk (UInt32.toBitVec_inj.mp hstate)

/-- From the same state, different bytes lead to different ones. -/
theorem byte_inj (heq : h.byte b = h.byte b') : b = b' := by
  have hmixed := mul_prime_inj (congrArg state heq)
  have hword := (BitVec.xor_right_inj h.state.toBitVec).mp (congrArg UInt32.toBitVec hmixed)
  exact UInt8.toUInt32_inj.mp (UInt32.toBitVec_inj.mp hword)

/-- Bytes behind others are folded after them. -/
theorem bytes_append (h : Fnv32) (bs bs' : List UInt8) :
    h.bytes (bs ++ bs') = (h.bytes bs).bytes bs' := List.foldl_append

/-- A common rest cannot bring different states together. -/
theorem bytes_state_inj (heq : h.bytes bs = h'.bytes bs) : h = h' := by
  induction bs generalizing h h' with
  | nil => exact heq
  | cons b rest ih => exact byte_state_inj (ih heq)

/-- **Strings that differ in one position have different digests.** -/
theorem hashBytes_ne (hdiffer : DifferOnce bs bs') : hashBytes bs ≠ hashBytes bs' := by
  obtain ⟨front, b, b', back, hne, rfl, rfl⟩ := hdiffer.split
  intro heq
  have hstates : empty.bytes (front ++ b :: back) = empty.bytes (front ++ b' :: back) :=
    congrArg Fnv32.mk heq
  rw [bytes_append, bytes_append] at hstates
  exact hne (byte_inj (bytes_state_inj hstates))

/-- The byte of a switch. -/
def flagByte (b : Bool) : UInt8 := if b then 1 else 0

/-- Different switches have different bytes. -/
theorem flagByte_inj {b b' : Bool} : flagByte b = flagByte b' ↔ b = b' := by
  cases b <;> cases b' <;> decide

/-- The word of a small number has one byte that is not zero. -/
theorem wordBytes_of_lt {n : Nat} (hlt : n < 256) :
    wordBytes n.toUInt32 = [n.toUInt8, 0, 0, 0] := by
  have hall : ∀ n : Fin 256, wordBytes n.val.toUInt32 = [n.val.toUInt8, 0, 0, 0] := by
    decide +kernel
  exact hall ⟨n, hlt⟩

end Fnv32

/-! ## Fields -/

namespace Named

variable {α : Type} [Named α] [DecidableEq α]

/-- Elements are told apart by their codes. -/
theorem code_inj (hall : ∀ x : α, x ∈ (all : List α)) {x y : α} : code x = code y ↔ x = y :=
  List.idxOf_inj (hall x)

/-- A code is less than the number of elements. -/
theorem code_lt (hall : ∀ x : α, x ∈ (all : List α)) (x : α) :
    code x < (all : List α).length := List.idxOf_lt_length_of_mem (hall x)

end Named

/-- The list of factors is complete. -/
theorem BlendFactor.mem_all (f : BlendFactor) : f ∈ (Named.all : List BlendFactor) := by
  cases f <;> decide

/-- The list of equations is complete. -/
theorem BlendEquation.mem_all (e : BlendEquation) : e ∈ (Named.all : List BlendEquation) := by
  cases e <;> decide

namespace PipelineState

/-- The fields that a fingerprint depends on. -/
inductive Field where
  | srcRgb
  | srcAlpha
  | dstRgb
  | dstAlpha
  | eqRgb
  | eqAlpha
  | mask (channel : Fin 4)
  | enable
  | blendEnabled
  | depthWrite
  deriving DecidableEq, Repr

namespace Field

/-- The states have the same value in the field. -/
def Agree (s s' : PipelineState) : Field → Prop
  | srcRgb => s.attachment.srcRgb = s'.attachment.srcRgb
  | srcAlpha => s.attachment.srcAlpha = s'.attachment.srcAlpha
  | dstRgb => s.attachment.dstRgb = s'.attachment.dstRgb
  | dstAlpha => s.attachment.dstAlpha = s'.attachment.dstAlpha
  | eqRgb => s.attachment.eqRgb = s'.attachment.eqRgb
  | eqAlpha => s.attachment.eqAlpha = s'.attachment.eqAlpha
  | mask channel => s.attachment.colorMask.has channel = s'.attachment.colorMask.has channel
  | enable => s.attachment.enable = s'.attachment.enable
  | blendEnabled => s.blendEnabled = s'.blendEnabled
  | depthWrite => s.depthWrite = s'.depthWrite

/-- The value as a byte: a code, or a switch. -/
def byte (s : PipelineState) : Field → UInt8
  | srcRgb => (Named.code s.attachment.srcRgb).toUInt8
  | srcAlpha => (Named.code s.attachment.srcAlpha).toUInt8
  | dstRgb => (Named.code s.attachment.dstRgb).toUInt8
  | dstAlpha => (Named.code s.attachment.dstAlpha).toUInt8
  | eqRgb => (Named.code s.attachment.eqRgb).toUInt8
  | eqAlpha => (Named.code s.attachment.eqAlpha).toUInt8
  | mask channel => Fnv32.flagByte (s.attachment.colorMask.has channel)
  | enable => Fnv32.flagByte s.attachment.enable
  | blendEnabled => Fnv32.flagByte s.blendEnabled
  | depthWrite => Fnv32.flagByte s.depthWrite

/-- Small codes are told apart by their bytes. -/
theorem code_byte_inj {α : Type} [Named α] [DecidableEq α]
    (hall : ∀ x : α, x ∈ (Named.all : List α))
    (hfew : (Named.all : List α).length ≤ 256) {x y : α} :
    (Named.code x).toUInt8 = (Named.code y).toUInt8 ↔ x = y := by
  have hx := Named.code_lt hall x
  have hy := Named.code_lt hall y
  rw [← Named.code_inj hall, ← UInt8.toNat_inj, Nat.toUInt8_eq, Nat.toUInt8_eq,
    UInt8.toNat_ofNat', UInt8.toNat_ofNat', Nat.mod_eq_of_lt (by omega),
    Nat.mod_eq_of_lt (by omega)]

/-- The byte of a field is the same exactly if the states agree in the field. -/
theorem byte_eq_iff (s s' : PipelineState) (field : Field) :
    field.byte s = field.byte s' ↔ field.Agree s s' := by
  have hfactor : ∀ {f g : BlendFactor},
      (Named.code f).toUInt8 = (Named.code g).toUInt8 ↔ f = g :=
    code_byte_inj BlendFactor.mem_all (by decide)
  have hequation : ∀ {e e' : BlendEquation},
      (Named.code e).toUInt8 = (Named.code e').toUInt8 ↔ e = e' :=
    code_byte_inj BlendEquation.mem_all (by decide)
  cases field with
  | srcRgb | srcAlpha | dstRgb | dstAlpha => exact hfactor
  | eqRgb | eqAlpha => exact hequation
  | mask | enable | blendEnabled | depthWrite => exact Fnv32.flagByte_inj

instance (s s' : PipelineState) (field : Field) : Decidable (field.Agree s s') :=
  decidable_of_iff _ (byte_eq_iff s s' field)

/-- Which position of the encoding belongs to which field; the others are zero. -/
def layout : List (Option Field) :=
  [srcRgb, srcAlpha, dstRgb, dstAlpha, eqRgb, eqAlpha].flatMap
      (fun field => [some field, none, none, none])
    ++ ((List.finRange 4).map mask ++ [enable, blendEnabled, depthWrite]).map some

/-- Every field has a place in the encoding. -/
theorem mem_layout (field : Field) : some field ∈ layout := by
  cases field with
  | mask channel =>
    revert channel
    decide
  | _ => decide

/-- No field has two positions. -/
theorem position_unique {field : Field} {i j : Nat} (hi : layout[i]? = some (some field))
    (hj : layout[j]? = some (some field)) : i = j := by
  have hall : ∀ i j : Fin layout.length, layout[i] = layout[j] → layout[i] = none ∨ i = j := by
    decide +kernel
  obtain ⟨hlt, hget⟩ := List.getElem?_eq_some_iff.mp hi
  obtain ⟨hlt', hget'⟩ := List.getElem?_eq_some_iff.mp hj
  rcases hall ⟨i, hlt⟩ ⟨j, hlt'⟩ (hget.trans hget'.symm) with hnone | hsame
  · cases hget.symm.trans hnone
  · exact congrArg Fin.val hsame

end Field

/-- The bytes of which the fingerprint is the digest. -/
def encoding (s : PipelineState) : List UInt8 :=
  s.codeWords.flatMap Fnv32.wordBytes ++ s.switches.map Fnv32.flagByte

/-- The fingerprint is the digest of the encoding. -/
theorem fingerprint_eq (s : PipelineState) : s.fingerprint = Fnv32.hashBytes s.encoding := by
  rfl

/-- **Every field has a byte of its own.** -/
theorem encoding_eq (s : PipelineState) :
    s.encoding = Field.layout.map fun slot => slot.elim 0 (Field.byte s) := by
  have hfactor : ∀ f : BlendFactor, Fnv32.wordBytes (Named.code f).toUInt32
      = [(Named.code f).toUInt8, 0, 0, 0] := fun f =>
    Fnv32.wordBytes_of_lt (Nat.lt_trans (Named.code_lt BlendFactor.mem_all f) (by decide))
  have hequation : ∀ e : BlendEquation, Fnv32.wordBytes (Named.code e).toUInt32
      = [(Named.code e).toUInt8, 0, 0, 0] := fun e =>
    Fnv32.wordBytes_of_lt (Nat.lt_trans (Named.code_lt BlendEquation.mem_all e) (by decide))
  unfold encoding codeWords
  simp only [List.map_cons, List.map_nil, List.flatMap_cons, List.flatMap_nil, hfactor, hequation]
  rfl

/-- States that differ in one field are encoded with one different byte. -/
theorem differOnce_encoding {s s' : PipelineState}
    (hdiffer : ∃! field : Field, ¬ field.Agree s s') :
    DifferOnce s.encoding s'.encoding := by
  obtain ⟨field, hfield, hunique⟩ := hdiffer
  obtain ⟨i, hi⟩ := List.getElem?_of_mem (Field.mem_layout field)
  rw [encoding_eq, encoding_eq]
  refine ⟨by rw [List.length_map, List.length_map], i, ?_, fun j hj => ?_⟩
  · simp only [List.getElem?_map, hi, Option.map_some, Option.elim_some]
    exact fun heq => hfield ((Field.byte_eq_iff s s' field).mp (Option.some.inj heq))
  · simp only [List.getElem?_map] at hj
    cases hslot : Field.layout[j]? with
    | none =>
      rw [hslot] at hj
      exact (hj rfl).elim
    | some slot =>
      rw [hslot] at hj
      cases slot with
      | none => exact (hj rfl).elim
      | some other =>
        have hother : ¬ other.Agree s s' := fun hagree =>
          hj (congrArg some ((Field.byte_eq_iff s s' other).mpr hagree))
        obtain rfl := hunique other hother
        exact Field.position_unique hslot hi

/-- **Neighbours have different digests**: byte strings of one length that differ in
exactly one position, and pipeline states that differ in exactly one field. -/
theorem fingerprint_ne_of_neighbours :
    (∀ bs bs' : List UInt8, DifferOnce bs bs' → Fnv32.hashBytes bs ≠ Fnv32.hashBytes bs') ∧
      ∀ s s' : PipelineState, (∃! field : Field, ¬ field.Agree s s') →
        s.fingerprint ≠ s'.fingerprint := by
  refine ⟨fun bs bs' => Fnv32.hashBytes_ne, fun s s' hdiffer => ?_⟩
  rw [fingerprint_eq, fingerprint_eq]
  exact Fnv32.hashBytes_ne (differOnce_encoding hdiffer)

/-- Everything but the alpha channel is written. -/
def opaqueOnly : PipelineState :=
  { (default : PipelineState) with attachment := { BlendAttachment.replace with colorMask := ⟨7⟩ } }

/-- Two strings that end differently, and two states that differ in the alpha channel of
the mask. -/
theorem fingerprint_ne_opaqueOnly :
    (DifferOnce [1, 2, 3] [1, 2, (4 : UInt8)] ∧
        Fnv32.hashBytes [1, 2, 3] ≠ Fnv32.hashBytes [1, 2, 4]) ∧
      (∃! field : Field, ¬ field.Agree default opaqueOnly) ∧
      (default : PipelineState).fingerprint ≠ opaqueOnly.fingerprint := by
  have hstrings : DifferOnce [1, 2, 3] [1, 2, (4 : UInt8)] := by
    refine ⟨rfl, 2, by decide, fun i hi => ?_⟩
    match i with
    | 0 | 1 => exact (hi rfl).elim
    | 2 => rfl
    | i + 3 => exact (hi rfl).elim
  have hstates : ∃! field : Field, ¬ field.Agree default opaqueOnly := by
    refine ⟨.mask 3, by decide, fun field hfield => ?_⟩
    cases field with
    | mask channel =>
      revert channel
      decide
    | _ => exact (hfield rfl).elim
  obtain ⟨hdigests, hfingerprints⟩ := fingerprint_ne_of_neighbours
  exact ⟨⟨hstrings, hdigests _ _ hstrings⟩, hstates, hfingerprints _ _ hstates⟩

end PipelineState

end PixelPipeline
