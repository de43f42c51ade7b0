import WordVM.Operand
import Mathlib.Data.Nat.Bitwise

/-!
# Bit fields as arithmetic

Masks and shifts say which bits of a word belong to a field; here fields are numbers. The value of
a field is a quotient taken modulo a power of two (`BitField.toNat_value`), so fifteen-bit results
are remainders (`Word.toNat_wrap`), and what an operand word decodes to depends on the range it
lies in (`Operand.decode_literal`, `Operand.decode_register`, `Operand.decode_invalid`).
-/

namespace WordVM

namespace BitField

variable {n : Nat}

/-- A mask is as many ones as the field is wide, moved up past the bits below it. -/
theorem toNat_mask (f : BitField n) : f.mask.toNat = (2 ^ f.width - 1) <<< f.offset := by
  have hfits := f.fits
  have hpow : 2 ^ f.width * 2 ^ f.offset ≤ 2 ^ n := by
    rw [← Nat.pow_add]
    exact Nat.pow_le_pow_right (by omega) hfits
  -- A field as wide as the word has no bit left for the shifted one: subtraction wraps around.
  have hones : (((1 : BitVec n) <<< f.width) - 1).toNat = 2 ^ f.width - 1 := by
    have hw : 2 ^ f.width ≤ 2 ^ n := Nat.pow_le_pow_right (by omega) (by omega)
    have hpos : 0 < 2 ^ f.width := Nat.two_pow_pos _
    obtain rfl | hn := Nat.eq_zero_or_pos n
    · have hzero : f.width = 0 := by omega
      simp [hzero]
    · have hone : 1 < 2 ^ n := Nat.one_lt_two_pow (by omega)
      rw [BitVec.toNat_sub, BitVec.toNat_shiftLeft, BitVec.ofNat_eq_ofNat, BitVec.toNat_ofNat,
        Nat.mod_eq_of_lt hone, Nat.shiftLeft_eq, Nat.one_mul]
      obtain hlt | heq := Nat.lt_or_eq_of_le hw
      · rw [Nat.mod_eq_of_lt hlt]
        rw [show 2 ^ n - 1 + 2 ^ f.width = (2 ^ f.width - 1) + 2 ^ n by omega,
          Nat.add_mod_right, Nat.mod_eq_of_lt (by omega)]
      · rw [heq, Nat.mod_self, Nat.add_zero, Nat.mod_eq_of_lt (by omega)]
  -- Moved up, the ones stay below `2 ^ n`, because the field fits in the word.
  rw [mask, BitVec.toNat_shiftLeft, hones, Nat.mod_eq_of_lt]
  rw [Nat.shiftLeft_eq, Nat.sub_mul, Nat.one_mul]
  have := Nat.two_pow_pos f.offset
  have := Nat.two_pow_pos n
  omega

/-- The value of a field, by division. -/
theorem toNat_value (f : BitField n) (v : BitVec n) :
    (f.value v).toNat = v.toNat / 2 ^ f.offset % 2 ^ f.width := by
  rw [value, BitVec.toNat_ushiftRight, BitVec.toNat_and, toNat_mask, Nat.shiftRight_and_distrib,
    Nat.shiftLeft_shiftRight, Nat.and_two_pow_sub_one_eq_mod, Nat.shiftRight_eq_div_pow]

/-- Masking keeps the value of the field, at its place. -/
theorem toNat_and_mask (f : BitField n) (v : BitVec n) :
    (v &&& f.mask).toNat = (f.value v).toNat <<< f.offset := by
  rw [toNat_value, BitVec.toNat_and, toNat_mask, ← Nat.shiftRight_eq_div_pow,
    ← Nat.and_two_pow_sub_one_eq_mod]
  apply Nat.eq_of_testBit_eq
  intro i
  simp only [Nat.testBit_and, Nat.testBit_shiftLeft, Nat.testBit_shiftRight]
  -- Below the field both sides have zeros, and from its offset on the bits of `v`.
  by_cases hi : f.offset ≤ i
  · simp [hi]
  · simp [hi]

/-- All bits of a field are ones exactly if it has the largest value that fits. -/
theorem isSet_iff (f : BitField n) (v : BitVec n) :
    f.isSet v = true ↔ (f.value v).toNat = 2 ^ f.width - 1 := by
  rw [isSet, beq_iff_eq, ← BitVec.toNat_inj, toNat_and_mask, toNat_mask, Nat.shiftLeft_eq,
    Nat.shiftLeft_eq]
  exact Nat.mul_left_inj (Nat.two_pow_pos _).ne'

end BitField

namespace Word

/-! ## Fifteen-bit values -/

/-- Fifteen bits are kept of an intermediate result. -/
theorem toNat_wrap (v : UInt32) : (wrap v).toNat = v.toNat % 32768 := by
  rw [wrap, UInt32.toNat_toUInt16, UInt32.toNat_ofBitVec, BitField.toNat_value]
  simp only [valueBits, UInt32.toNat_toBitVec]
  omega

/-- The sum of two words fits in 32 bits, so only the final reduction loses anything. -/
theorem toNat_add (a b : Word) : (add a b).toNat = (a.toNat + b.toNat) % 32768 := by
  have ha := a.toNat_lt
  have hb := b.toNat_lt
  rw [add, toNat_wrap, UInt32.toNat_add, UInt16.toNat_toUInt32, UInt16.toNat_toUInt32]
  omega

/-- The product of two words fits in 32 bits, so only the final reduction loses anything. -/
theorem toNat_mul (a b : Word) : (mul a b).toNat = a.toNat * b.toNat % 32768 := by
  have hlt : a.toNat * b.toNat < 2 ^ 32 := by
    calc a.toNat * b.toNat < 2 ^ 16 * 2 ^ 16 := Nat.mul_lt_mul'' a.toNat_lt b.toNat_lt
      _ = 2 ^ 32 := rfl
  rw [mul, toNat_wrap, UInt32.toNat_mul, UInt16.toNat_toUInt32, UInt16.toNat_toUInt32,
    Nat.mod_eq_of_lt hlt]

end Word

namespace Operand

/-! ## Operand words by range -/

/-- The flag of an operand word is its top bit. -/
theorem isSet_registerFlag (raw : Word) :
    registerFlag.isSet raw.toBitVec = true ↔ 32768 ≤ raw.toNat := by
  have h := raw.toNat_lt
  rw [BitField.isSet_iff, BitField.toNat_value, UInt16.toNat_toBitVec]
  simp only [registerFlag]
  omega

/-- The payload of an operand word is the rest of its bits. -/
theorem toNat_payload (raw : Word) :
    (UInt16.ofBitVec (payload.value raw.toBitVec)).toNat = raw.toNat % 32768 := by
  rw [UInt16.toNat_ofBitVec, BitField.toNat_value, UInt16.toNat_toBitVec]
  simp only [payload]
  omega

/-- The lower half of the words are literals. -/
theorem decode_literal (registers : Registers) {raw : Word} (h : raw.toNat < 32768) :
    decode registers raw = .ok (.literal raw) := by
  have hflag : registerFlag.isSet raw.toBitVec = false := by
    rw [Bool.eq_false_iff, ne_eq, isSet_registerFlag]
    omega
  have hcontent : UInt16.ofBitVec (payload.value raw.toBitVec) = raw := by
    apply UInt16.toNat_inj.mp
    rw [toNat_payload, Nat.mod_eq_of_lt h]
  simp [decode, hflag, hcontent]

/-- The first words of the upper half name the registers. -/
theorem decode_register (registers : Registers) {raw : Word} (i : Fin registerCount)
    (h : raw.toNat = 32768 + i) :
    decode registers raw = .ok (.register i registers[i]) := by
  have hflag : registerFlag.isSet raw.toBitVec = true := by
    rw [isSet_registerFlag]
    omega
  have hi : i.val < 8 := i.isLt
  have hcontent : (UInt16.ofBitVec (payload.value raw.toBitVec)).toNat = i := by
    rw [toNat_payload, h]
    omega
  simp [decode, hflag, hcontent]

/-- All other words are refused. -/
theorem decode_invalid (registers : Registers) {raw : Word} (h : 32776 ≤ raw.toNat) :
    decode registers raw = .error (.invalidNumber raw) := by
  have hlt := raw.toNat_lt
  have hflag : registerFlag.isSet raw.toBitVec = true := by
    rw [isSet_registerFlag]
    omega
  -- The words from 32776 on have payloads from 8 on.
  have hcontent : ¬ (UInt16.ofBitVec (payload.value raw.toBitVec)).toNat < registerCount := by
    rw [toNat_payload]
    show ¬ raw.toNat % 32768 < 8
    omega
  simp only [decode, hflag, hcontent, dite_false, if_true]

/-- Exactly these words are refused. -/
theorem decode_eq_error_iff {registers : Registers} {raw : Word} {f : Fault} :
    decode registers raw = .error f ↔ 32776 ≤ raw.toNat ∧ f = .invalidNumber raw := by
  by_cases hlit : raw.toNat < 32768
  · rw [decode_literal registers hlit]
    simp only [reduceCtorEq, false_iff]
    omega
  · by_cases hreg : raw.toNat < 32776
    · rw [decode_register registers ⟨raw.toNat - 32768, by show _ < 8; omega⟩ (by dsimp only; omega)]
      simp only [reduceCtorEq, false_iff]
      omega
    · rw [decode_invalid registers (by omega)]
      simp only [Except.error.injEq, eq_comm, iff_and_self]
      omega

end Operand

end WordVM
