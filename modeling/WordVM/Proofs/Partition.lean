import Mathlib.Algebra.BigOperators.Intervals
import Mathlib.Algebra.BigOperators.Ring.Finset
import WordVM.Proofs.Encoding

/-!
# Words cut into fields

A bit field is a set of bits (`BitField.Covers`), and what these bits add to the number of a word
is the value of the field at its place (`BitField.toNat_value_mul`). Fields that have every bit of
a word exactly once (`BitField.Partition`) therefore make up the word: it is the sum of their values
at their places (`BitField.Partition.sum_value`).

An operand word is such a case. Its two fields are a partition, so nothing of it is lost when it is
decoded. `BitField.fields_and_operands` says what a field is in general, and what an operand word
decodes to.
-/

namespace WordVM

namespace BitField

variable {n : Nat}

/-! ## The bits of a field -/

/-- Bit `i` of a word is one of the bits of the field. -/
def Covers (f : BitField n) (i : Nat) : Prop := f.offset ≤ i ∧ i < f.offset + f.width

instance (f : BitField n) : DecidablePred f.Covers :=
  fun _ => inferInstanceAs (Decidable (_ ∧ _))

/-- Every bit of an `n`-bit word lies in exactly one of the fields. -/
def Partition (fields : List (BitField n)) : Prop :=
  ∀ i < n, fields.countP (fun f => f.Covers i) = 1

instance (fields : List (BitField n)) : Decidable (Partition fields) :=
  inferInstanceAs (Decidable (∀ i < n, _))

/-- The mask has its ones where the field is. -/
theorem getLsbD_mask (f : BitField n) (i : Nat) : f.mask.getLsbD i = decide (f.Covers i) := by
  have hcovers : f.Covers i ↔ f.offset ≤ i ∧ i - f.offset < f.width := by
    unfold Covers
    omega
  rw [← BitVec.testBit_toNat, toNat_mask, Nat.testBit_shiftLeft, Nat.testBit_two_pow_sub_one,
    decide_eq_decide.mpr hcovers, Bool.decide_and]

/-! ## Sums over the bits of a word -/

/-- What bit `i` adds to the number of a word. -/
def weight (v : BitVec n) (i : Nat) : Nat := (v.getLsbD i).toNat * 2 ^ i

/-- The low bits of a word spell a remainder. -/
theorem sum_weight (v : BitVec n) (k : Nat) :
    ∑ i ∈ Finset.range k, weight v i = v.toNat % 2 ^ k := by
  induction k with
  | zero => rw [Finset.sum_range_zero, Nat.pow_zero, Nat.mod_one]
  | succ k ih =>
    have hbit : (v.getLsbD k).toNat = v.toNat / 2 ^ k % 2 := by
      rw [← BitVec.testBit_toNat, Nat.toNat_testBit]
    rw [Finset.sum_range_succ, ih, weight, hbit, Nat.mod_pow_succ, Nat.mul_comm (2 ^ k)]

theorem toNat_eq_sum (v : BitVec n) : v.toNat = ∑ i ∈ Finset.range n, weight v i := by
  rw [sum_weight, Nat.mod_eq_of_lt v.isLt]

/-- The value of a field, at its place, is what the bits of the field add to the word. -/
theorem toNat_value_mul (f : BitField n) (v : BitVec n) :
    (f.value v).toNat * 2 ^ f.offset =
      ∑ i ∈ Finset.range n, if f.Covers i then weight v i else 0 := by
  -- At its place the field is the word under the mask, of which each bit is kept or cleared.
  rw [← Nat.shiftLeft_eq, ← toNat_and_mask, toNat_eq_sum]
  refine Finset.sum_congr rfl fun i _ => ?_
  rw [weight, BitVec.getLsbD_and, getLsbD_mask]
  split
  · next h => rw [decide_eq_true h, Bool.and_true, weight]
  · next h => rw [decide_eq_false h, Bool.and_false, Bool.toNat_false, Nat.zero_mul]

/-- The values of any fields, at their places, count each bit as often as it is covered. -/
theorem sum_value (fields : List (BitField n)) (v : BitVec n) :
    (fields.map fun f => (f.value v).toNat * 2 ^ f.offset).sum =
      ∑ i ∈ Finset.range n, fields.countP (fun f => f.Covers i) * weight v i := by
  induction fields with
  | nil => simp
  | cons f rest ih =>
    rw [List.map_cons, List.sum_cons, ih, toNat_value_mul, ← Finset.sum_add_distrib]
    refine Finset.sum_congr rfl fun i _ => ?_
    rw [List.countP_cons, Nat.add_mul, Nat.add_comm]
    simp only [decide_eq_true_eq, ite_mul, Nat.one_mul, Nat.zero_mul]

/-- Fields that partition a word make it up. -/
theorem Partition.sum_value {fields : List (BitField n)} (h : Partition fields) (v : BitVec n) :
    (fields.map fun f => (f.value v).toNat * 2 ^ f.offset).sum = v.toNat := by
  rw [BitField.sum_value, toNat_eq_sum]
  refine Finset.sum_congr rfl fun i hi => ?_
  rw [h i (Finset.mem_range.mp hi), Nat.one_mul]

end BitField

namespace Operand

/-! ## Operand words -/

variable {registers : Registers} {raw : Word}

theorem partition_fields : BitField.Partition [registerFlag, payload] := by decide

/-- Exactly these words are literals. -/
theorem decode_eq_literal_iff {value : Word} :
    decode registers raw = .ok (.literal value) ↔ raw.toNat ≤ 32767 ∧ value = raw := by
  constructor
  · intro h
    have hvalue : value = raw := encode_of_decode h
    refine ⟨?_, hvalue⟩
    by_contra hwide
    by_cases hbad : 32776 ≤ raw.toNat
    · rw [decode_invalid registers hbad] at h
      cases h
    · have hindex : raw.toNat - 32768 < 8 := by omega
      rw [decode_register registers ⟨raw.toNat - 32768, hindex⟩ (by dsimp only; omega)] at h
      cases h
  · rintro ⟨hnarrow, rfl⟩
    exact decode_literal registers (Nat.lt_succ_of_le hnarrow)

/-- Exactly these words name registers. -/
theorem decode_eq_register_iff {index : Fin registerCount} {value : Word} :
    decode registers raw = .ok (.register index value) ↔
      raw.toNat = 32768 + index ∧ value = registers.get index := by
  constructor
  · intro h
    have hraw : raw.toNat = 32768 + index := by
      rw [← encode_of_decode h]
      exact toNat_encode_register ..
    rw [decode_register registers index hraw] at h
    cases h
    exact ⟨hraw, rfl⟩
  · rintro ⟨hraw, rfl⟩
    exact decode_register registers index hraw

end Operand

namespace BitField

/-- A field is a quotient taken modulo a power of two, and it is set if all of its bits are ones.
Fields that partition a word make it up. So operand words split into three ranges: the lower half
are literals, the next eight words name the registers and carry their contents, and all others are
refused. No two words decode to the same operand. -/
theorem fields_and_operands :
    (∀ {n : Nat} (f : BitField n) (v : BitVec n),
      f.mask.toNat = ((1 <<< f.width) - 1) <<< f.offset ∧
        (f.value v).toNat = v.toNat / 2 ^ f.offset % 2 ^ f.width ∧
        (f.isSet v = true ↔ (f.value v).toNat = 2 ^ f.width - 1)) ∧
      (∀ {n : Nat} (fields : List (BitField n)), Partition fields → ∀ v : BitVec n,
        v.toNat = (fields.map fun f => (f.value v).toNat * 2 ^ f.offset).sum) ∧
      (∀ (registers : Registers) (raw : Word),
        (∀ value, Operand.decode registers raw = .ok (.literal value) ↔
          raw.toNat ≤ 32767 ∧ value = raw) ∧
        (∀ index value, Operand.decode registers raw = .ok (.register index value) ↔
          (32768 ≤ raw.toNat ∧ raw.toNat ≤ 32775) ∧ index.val = raw.toNat - 32768 ∧
            value = registers.get index) ∧
        ∀ fault, Operand.decode registers raw = .error fault ↔
          32776 ≤ raw.toNat ∧ fault = .invalidNumber raw) ∧
      ∀ (registers registers' : Registers) (raw raw' : Word) (o : Operand),
        Operand.decode registers raw = .ok o → Operand.decode registers' raw' = .ok o →
          raw = raw' := by
  refine ⟨fun f v => ⟨?_, f.toNat_value v, f.isSet_iff v⟩, fun fields h v => (h.sum_value v).symm,
    fun registers raw => ⟨fun value => Operand.decode_eq_literal_iff, fun index value => ?_,
      fun fault => Operand.decode_eq_error_iff⟩, fun registers registers' raw raw' o h h' => ?_⟩
  · rw [toNat_mask, Nat.one_shiftLeft]
  · have hindex : index.val < 8 := index.isLt
    rw [Operand.decode_eq_register_iff, ← and_assoc]
    refine and_congr_left fun _ => ?_
    omega
  · exact (Operand.encode_of_decode h).symm.trans (Operand.encode_of_decode h')

/-- The fields of an operand word make it up, here the word that names register 7. -/
theorem fields_and_operands_registerSeven :
    Partition [Operand.registerFlag, Operand.payload] ∧
      (0x8007#16).toNat = 1 * 2 ^ 15 + 7 * 2 ^ 0 ∧
      Operand.decode #v[0, 0, 0, 0, 0, 0, 0, 99] 0x8007 = .ok (.register 7 99) ∧
      Operand.decode #v[0, 0, 0, 0, 0, 0, 0, 99] 0x0007 ≠ .ok (.register 7 99) := by
  obtain ⟨-, hsum, hdecode, hinjective⟩ := fields_and_operands
  have hregister : Operand.decode #v[0, 0, 0, 0, 0, 0, 0, 99] 0x8007 = .ok (.register 7 99) :=
    ((hdecode _ _).2.1 7 99).mpr ⟨by decide, by decide, rfl⟩
  exact ⟨Operand.partition_fields,
    (hsum [Operand.registerFlag, Operand.payload] Operand.partition_fields 0x8007#16).trans
      (by decide),
    hregister, fun hliteral => absurd (hinjective _ _ _ _ _ hregister hliteral) (by decide)⟩

end BitField

end WordVM
