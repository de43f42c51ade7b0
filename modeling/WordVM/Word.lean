import WordVM.BitField

/-!
# Words

The machine computes on 16-bit words, which lie in memory low byte first. Values proper have
fifteen bits: sums and products are formed in 32 bits, where two words cannot overflow, and only
their low fifteen bits are kept. `complement` flips the fifteen value bits and leaves bit 15 as it
finds it.

`toNat_ofBytes`, `toNat_lowByte` and `toNat_highByte` read the bytes of a word as numbers.
-/

namespace WordVM

/-- The unit that the machine stores and computes on. -/
abbrev Word := UInt16

namespace Word

/-- The byte of a word that comes first in memory. -/
def lowByte (w : Word) : UInt8 := w.toUInt8

/-- The byte of a word that comes second in memory. -/
def highByte (w : Word) : UInt8 := (w >>> 8).toUInt8

/-- The word that two successive bytes of memory spell. -/
def ofBytes (low high : UInt8) : Word := high.toUInt16 <<< 8 ||| low.toUInt16

/-- A word written out as it lies in memory. -/
def toBytes (w : Word) : List UInt8 := [lowByte w, highByte w]

/-- Where in memory the word with address `w` begins, counted in bytes. -/
def byteOffset (w : Word) : Nat := 2 * w.toNat

/-- The bits of a 32-bit intermediate result that a value keeps. -/
@[inline] def valueBits : BitField 32 := { width := 15, offset := 0 }

/-- Reduces an intermediate result to a fifteen-bit value. -/
def wrap (v : UInt32) : Word := (UInt32.ofBitVec (valueBits.value v.toBitVec)).toUInt16

/-- The sum of two words as a fifteen-bit value. -/
def add (a b : Word) : Word := wrap (a.toUInt32 + b.toUInt32)

/-- The product of two words as a fifteen-bit value. -/
def mul (a b : Word) : Word := wrap (a.toUInt32 * b.toUInt32)

/-- Flips the fifteen value bits of a word. Bit 15 stays as it is. -/
def complement (w : Word) : Word := 0x7FFF ^^^ w

/-- A truth value as a word: one for true, zero for false. -/
def ofBool (b : Bool) : Word := if b then 1 else 0

/-- The character that a word stands for. A surrogate is no character, so U+FFFD takes its
place. -/
def toChar (w : Word) : Char := if w.toNat.isValidChar then Char.ofNat w.toNat else '\uFFFD'

/-! ## Bytes of a word as numbers -/

theorem toNat_lowByte (w : Word) : (lowByte w).toNat = w.toNat % 256 := by
  simp [lowByte]

theorem toNat_highByte (w : Word) : (highByte w).toNat = w.toNat / 256 := by
  have h := w.toNat_lt
  have e : UInt16.toNat 8 % 16 = 8 := rfl
  simp only [highByte, UInt16.toNat_toUInt8, UInt16.toNat_shiftRight, e,
    Nat.shiftRight_eq_div_pow]
  omega

theorem toNat_ofBytes (low high : UInt8) :
    (ofBytes low high).toNat = low.toNat + 256 * high.toNat := by
  have hl := low.toNat_lt
  have hh := high.toNat_lt
  have e : UInt16.toNat 8 % 16 = 8 := rfl
  simp only [ofBytes, UInt16.toNat_or, UInt16.toNat_shiftLeft, UInt8.toNat_toUInt16, e]
  rw [Nat.mod_eq_of_lt (by rw [Nat.shiftLeft_eq]; omega), ← Nat.shiftLeft_add_eq_or_of_lt hl,
    Nat.shiftLeft_eq]
  omega

@[simp] theorem ofBytes_lowByte_highByte (w : Word) : ofBytes (lowByte w) (highByte w) = w := by
  apply UInt16.toNat_inj.mp
  rw [toNat_ofBytes, toNat_lowByte, toNat_highByte]
  omega

@[simp] theorem lowByte_ofBytes (low high : UInt8) : lowByte (ofBytes low high) = low := by
  apply UInt8.toNat_inj.mp
  have := low.toNat_lt
  rw [toNat_lowByte, toNat_ofBytes]
  omega

@[simp] theorem highByte_ofBytes (low high : UInt8) : highByte (ofBytes low high) = high := by
  apply UInt8.toNat_inj.mp
  have := low.toNat_lt
  rw [toNat_highByte, toNat_ofBytes]
  omega

end Word

end WordVM
