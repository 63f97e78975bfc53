import PixelPipeline.Image.Codec

/-!
# Bit fields

A bit field is some bits of a number from a place on.  Setting it replaces those bits
(`testBit_setField`), so fields that are apart from it keep their codes
(`code_setField_of_apart`).

The bytes of a texel write a number, and some of them in place are a bit field of it:
what replaces bytes sets a field (`Bytes.wordOf_overwrite`).  In this way the formats
with whole components and those with packed ones become the same.
-/

namespace PixelPipeline

/-! ## Bit fields of a number -/

namespace BitField

/-- The bits of the field. -/
def code (g : BitField) (word : Nat) : Nat := word / 2 ^ g.shift % 2 ^ g.width

/-- The fields have no bit in common. -/
def Apart (g g' : BitField) : Prop :=
  g.shift + g.width ≤ g'.shift ∨ g'.shift + g'.width ≤ g.shift

instance (g g' : BitField) : Decidable (g.Apart g') :=
  inferInstanceAs (Decidable (_ ∨ _))

variable {g g' : BitField} {word word' code : Nat}

/-- The bits of a code are those of the word from the field's place on. -/
theorem testBit_code (g : BitField) (word k : Nat) :
    (g.code word).testBit k = (decide (k < g.width) && word.testBit (k + g.shift)) := by
  unfold BitField.code
  rw [Nat.testBit_mod_two_pow, Nat.testBit_div_two_pow]

/-- The code is made of the bits of the field. -/
theorem code_congr
    (hbits : ∀ k, g.shift ≤ k → k < g.shift + g.width → word'.testBit k = word.testBit k) :
    g.code word' = g.code word := by
  apply Nat.eq_of_testBit_eq
  intro k
  rw [testBit_code, testBit_code]
  by_cases hk : k < g.width
  · rw [hbits (k + g.shift) (by omega) (by omega)]
  · simp only [hk, decide_false, Bool.false_and]

/-- Words with one code agree in the bits of the field. -/
theorem testBit_of_code_eq (hcode : g.code word' = g.code word) {k : Nat} (hstart : g.shift ≤ k)
    (hend : k < g.shift + g.width) : word'.testBit k = word.testBit k := by
  have hbit := congrArg (fun n => n.testBit (k - g.shift)) hcode
  simp only [testBit_code] at hbit
  have hinside : k - g.shift < g.width := by omega
  have hback : k - g.shift + g.shift = k := by omega
  simpa only [hinside, hback, decide_true, Bool.true_and] using hbit

end BitField

namespace Format

variable {g g' : BitField} {word code : Nat}

/-- A field lies between the bits above and the bits below. -/
theorem setField_eq (g : BitField) (word code : Nat) :
    setField g word code
      = 2 ^ g.shift * (2 ^ g.width * (word / 2 ^ g.shift / 2 ^ g.width) + code)
        + word % 2 ^ g.shift := by
  have houter := Nat.div_add_mod word (2 ^ g.shift)
  have hinner := Nat.div_add_mod (word / 2 ^ g.shift) (2 ^ g.width)
  unfold setField
  generalize word / 2 ^ g.shift / 2 ^ g.width = high at hinner ⊢
  generalize word / 2 ^ g.shift % 2 ^ g.width = old at hinner ⊢
  generalize word % 2 ^ g.shift = low at houter ⊢
  rw [← houter, ← hinner, Nat.mul_add, Nat.mul_add, Nat.mul_comm old, Nat.mul_comm code]
  omega

/-- A field at the bottom lies below the other bits. -/
theorem setField_bottom (width word code : Nat) :
    setField ⟨0, width⟩ word code = 2 ^ width * (word / 2 ^ width) + code := by
  rw [setField_eq]
  simp only [Nat.pow_zero, Nat.div_one, Nat.mod_one, Nat.one_mul, Nat.add_zero]

/-- The top byte of four that is written back as it was does not change. -/
theorem setField_three_bytes (word : Nat) {code : Nat} (hcode : code < 2 ^ 24) :
    setField ⟨0, 32⟩ word ((word % 2 ^ 32 / 2 ^ 24 * 2 ^ 24 + code) % 2 ^ 32)
      = setField ⟨0, 24⟩ word code := by
  have hhigh : word % 2 ^ 32 / 2 ^ 24 = word / 2 ^ 24 % 2 ^ 8 := by omega
  have hword : word % 2 ^ 32 / 2 ^ 24 * 2 ^ 24 + code < 2 ^ 32 := by omega
  rw [setField_bottom, setField_bottom, Nat.mod_eq_of_lt hword, hhigh]
  omega

/-- **Setting a field** replaces the bits of the field and no others. -/
theorem testBit_setField (hcode : code < 2 ^ g.width) (word k : Nat) :
    (setField g word code).testBit k
      = if g.shift ≤ k ∧ k < g.shift + g.width then code.testBit (k - g.shift)
        else word.testBit k := by
  have hlow := Nat.mod_lt word (Nat.two_pow_pos g.shift)
  rw [setField_eq, Nat.testBit_two_pow_mul_add _ hlow, Nat.testBit_two_pow_mul_add _ hcode]
  by_cases hbelow : k < g.shift
  · rw [if_pos hbelow, if_neg (by omega), Nat.testBit_mod_two_pow]
    simp only [hbelow, decide_true, Bool.true_and]
  · rw [if_neg hbelow]
    by_cases hinside : k - g.shift < g.width
    · rw [if_pos hinside, if_pos (by omega)]
    · have hback : k - g.shift - g.width + g.width + g.shift = k := by omega
      rw [if_neg hinside, if_neg (by omega), Nat.testBit_div_two_pow, Nat.testBit_div_two_pow,
        hback]

/-- A code that was set is the field's code. -/
theorem code_setField (hcode : code < 2 ^ g.width) (word : Nat) :
    g.code (setField g word code) = code := by
  apply Nat.eq_of_testBit_eq
  intro k
  rw [BitField.testBit_code, testBit_setField hcode]
  by_cases hk : k < g.width
  · rw [if_pos (by omega), Nat.add_sub_cancel]
    simp only [hk, decide_true, Bool.true_and]
  · have hpow : 2 ^ g.width ≤ 2 ^ k := Nat.pow_le_pow_right (by decide) (by omega)
    simp only [hk, decide_false, Bool.false_and]
    exact (Nat.testBit_lt_two_pow (Nat.lt_of_lt_of_le hcode hpow)).symm

/-- Setting a field keeps the fields that are apart from it. -/
theorem code_setField_of_apart (hcode : code < 2 ^ g.width) (hapart : g'.Apart g) (word : Nat) :
    g'.code (setField g word code) = g'.code word := by
  apply BitField.code_congr
  intro k hstart hend
  rw [testBit_setField hcode, if_neg]
  unfold BitField.Apart at hapart
  omega

end Format

/-! ## The number of some bytes -/

namespace Bytes

open Format (setField setField_eq)

variable {bytes new : Bytes} {start n : Nat}

/-- A byte has eight bits. -/
theorem pow_bytes (n : Nat) : 256 ^ n = 2 ^ (8 * n) := (Nat.pow_mul 2 8 n).symm

/-- Bytes behind others count as many powers of 256 more. -/
theorem wordOf_append (bytes rest : Bytes) :
    wordOf (bytes ++ rest) = 256 ^ bytes.length * wordOf rest + wordOf bytes := by
  induction bytes with
  | nil => simp [wordOf]
  | cons b tail ih =>
    rw [List.cons_append, wordOf, wordOf, ih, List.length_cons, Nat.pow_succ', Nat.mul_add,
      Nat.mul_assoc]
    omega

/-- The number of some bytes is that of the first and of the last of them. -/
theorem wordOf_split (hle : n ≤ bytes.length) :
    wordOf bytes = 256 ^ n * wordOf (bytes.drop n) + wordOf (bytes.take n) := by
  have hlength : (bytes.take n).length = n := List.length_take_of_le hle
  have happend := wordOf_append (bytes.take n) (bytes.drop n)
  rwa [List.take_append_drop, hlength] at happend

/-- As many bytes write no greater number. -/
theorem wordOf_take_lt (bytes : Bytes) (n : Nat) : wordOf (bytes.take n) < 256 ^ n :=
  Nat.lt_of_lt_of_le (wordOf_lt _)
    (Nat.pow_le_pow_right (by decide) (List.length_take_le n bytes))

/-- The first bytes write the remainder. -/
theorem wordOf_take (hle : n ≤ bytes.length) :
    wordOf (bytes.take n) = wordOf bytes % 256 ^ n := by
  rw [wordOf_split hle, Nat.mul_add_mod, Nat.mod_eq_of_lt (wordOf_take_lt bytes n)]

/-- A field of the first bytes is one of all bytes. -/
theorem code_take {g : BitField} (hinside : g.shift + g.width ≤ 8 * n) (hle : n ≤ bytes.length) :
    g.code (wordOf (bytes.take n)) = g.code (wordOf bytes) := by
  apply BitField.code_congr
  intro k _ hend
  have hk : k < 8 * n := by omega
  rw [wordOf_take hle, pow_bytes, Nat.testBit_mod_two_pow]
  simp only [hk, decide_true, Bool.true_and]

/-- The last bytes write the quotient. -/
theorem wordOf_drop (hle : n ≤ bytes.length) :
    wordOf (bytes.drop n) = wordOf bytes / 256 ^ n := by
  rw [wordOf_split hle, Nat.mul_add_div (Nat.pow_pos (by decide)),
    Nat.div_eq_of_lt (wordOf_take_lt bytes n), Nat.add_zero]

/-- The bits of the bytes behind. -/
theorem testBit_of_drop_eq (hlength : new.length = bytes.length) (hle : n ≤ bytes.length)
    (hdrop : new.drop n = bytes.drop n) {k : Nat} (hk : 8 * n ≤ k) :
    (wordOf new).testBit k = (wordOf bytes).testBit k := by
  have hwords := congrArg (fun rest => (wordOf rest).testBit (k - 8 * n)) hdrop
  have hback : k - 8 * n + 8 * n = k := Nat.sub_add_cancel hk
  simpa only [wordOf_drop hle, wordOf_drop (hlength ▸ hle), pow_bytes, Nat.testBit_div_two_pow,
    hback] using hwords

/-- Bytes of one length that write one number are the same. -/
theorem wordOf_inj (hlength : new.length = bytes.length) (hword : wordOf new = wordOf bytes) :
    new = bytes := by
  rw [← wordBytes_wordOf new, ← wordBytes_wordOf bytes, hlength, hword]

/-- Some bytes in place are a bit field. -/
theorem wordOf_slice (hle : start + n ≤ bytes.length) :
    wordOf (slice bytes start n) = BitField.code ⟨8 * start, 8 * n⟩ (wordOf bytes) := by
  have hdrop : n ≤ (bytes.drop start).length := by
    rw [List.length_drop]
    omega
  unfold slice BitField.code
  rw [wordOf_take hdrop, wordOf_drop (by omega), pow_bytes, pow_bytes]

/-- Replacing bytes sets a bit field. -/
theorem wordOf_overwrite (hle : start + new.length ≤ bytes.length) :
    wordOf (overwrite bytes start new)
      = setField ⟨8 * start, 8 * new.length⟩ (wordOf bytes) (wordOf new) := by
  have htake : (bytes.take start).length = start := List.length_take_of_le (by omega)
  unfold overwrite
  rw [List.append_assoc, wordOf_append, wordOf_append, htake, setField_eq, wordOf_drop hle,
    wordOf_take (by omega), Nat.pow_add, ← Nat.div_div_eq_div_mul]
  simp only [pow_bytes]

/-- A field of the first bytes is one of the number that they are replaced by. -/
theorem code_overwrite {g : BitField} (hinside : g.shift + g.width ≤ 8 * n)
    (hle : n ≤ bytes.length) (word : Nat) :
    g.code (wordOf (overwrite bytes 0 (wordBytes n word))) = g.code word := by
  have hlength := length_wordBytes n word
  have hlt : word % 2 ^ (8 * n) < 2 ^ (8 * n) := Nat.mod_lt _ (Nat.two_pow_pos _)
  apply BitField.code_congr
  intro k _ hend
  have hk : k < 8 * n := by omega
  rw [wordOf_overwrite (by omega), hlength, wordOf_wordBytes, pow_bytes,
    Format.testBit_setField hlt, if_pos ⟨Nat.zero_le _, by simpa using hk⟩,
    Nat.testBit_mod_two_pow]
  simp [hk]

/-- A byte is a bit field. -/
theorem code_of_getElem? {b : UInt8} {i : Nat} (hget : bytes[i]? = some b) :
    BitField.code ⟨8 * i, 8⟩ (wordOf bytes) = b.toNat := by
  obtain ⟨hlt, rfl⟩ := List.getElem?_eq_some_iff.mp hget
  have hslice : slice bytes i 1 = [bytes[i]] := by
    unfold slice
    rw [List.drop_eq_getElem_cons hlt]
    rfl
  rw [← wordOf_slice (n := 1) (by omega), hslice]
  rfl

/-- Replacing one byte overwrites it. -/
theorem set_eq_overwrite {i : Nat} (hlt : i < bytes.length) (b : UInt8) :
    bytes.set i b = overwrite bytes i [b] := by
  unfold overwrite
  rw [List.set_eq_take_append_cons_drop, if_pos hlt, List.append_assoc]
  rfl

end Bytes

end PixelPipeline
