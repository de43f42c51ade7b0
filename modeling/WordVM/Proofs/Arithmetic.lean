import Mathlib.Data.Int.ModEq
import WordVM.Proofs.Erasure
import WordVM.Proofs.ValueRange

/-!
# Arithmetic modulo 2^15

Programs compute by performing one operation after another, each of which takes words that others
have left. A `Formula` is such a computation: a tree of sums, products and complements over words.

Modulo 32768 the operations on words are those on integers, with `-1 - x` for the complement, and
so are whole formulas (`Formula.value_modEq`). The value of a formula is itself a remainder if it
has fifteen bits, which is so for all formulas over values (`Formula.isValue_value_of_words`) and
for every sum and product (`Formula.isValue_value_of_isReduced`). On the way no sum and no product
outgrows 32 bits (`Formula.checked_eq`).
-/

namespace WordVM

namespace Word

/-! ## Operations as congruences -/

theorem add_modEq (a b : Word) : ((add a b).toNat : Int) ≡ a.toNat + b.toNat [ZMOD 32768] := by
  rw [toNat_add]
  push_cast
  exact Int.mod_modEq ..

theorem mul_modEq (a b : Word) : ((mul a b).toNat : Int) ≡ a.toNat * b.toNat [ZMOD 32768] := by
  rw [toNat_mul]
  push_cast
  exact Int.mod_modEq ..

/-- The fifteen low bits of a complement are those of the word, each of them flipped. -/
theorem toNat_complement_mod (w : Word) :
    (complement w).toNat % 32768 = 32767 - w.toNat % 32768 := by
  -- Only in fifteen bits is the mask of the complement all ones, so that `^^^` with it is `~~~`.
  have hones : BitVec.setWidth 15 0x7FFF#16 = .allOnes 15 := by decide
  have hflip : (complement w).toBitVec.setWidth 15 = ~~~ w.toBitVec.setWidth 15 := by
    rw [← BitVec.allOnes_xor, ← hones, ← BitVec.setWidth_xor]
    rfl
  have hnumber := congrArg BitVec.toNat hflip
  rw [BitVec.toNat_not, BitVec.toNat_setWidth, BitVec.toNat_setWidth] at hnumber
  exact hnumber

theorem complement_modEq (w : Word) : ((complement w).toNat : Int) ≡ -1 - w.toNat [ZMOD 32768] := by
  have hflip := toNat_complement_mod w
  rw [Int.ModEq]
  omega

end Word

/-- A computation on words. -/
inductive Formula
  /-- A word that is given. -/
  | word (w : Word)
  /-- The sum of two results. -/
  | add (a b : Formula)
  /-- The product of two results. -/
  | mul (a b : Formula)
  /-- The complement of a result. -/
  | complement (a : Formula)
deriving DecidableEq, Repr

namespace Formula

/-- The word that a formula comes to. -/
def value : Formula → Word
  | word w => w
  | add a b => .add a.value b.value
  | mul a b => .mul a.value b.value
  | complement a => .complement a.value

/-- The integer that a formula comes to, with integers of any size for words. -/
def integer : Formula → Int
  | word w => w.toNat
  | add a b => a.integer + b.integer
  | mul a b => a.integer * b.integer
  | complement a => -1 - a.integer

/-- The word that a formula comes to, if none of its sums and products in 32 bits overflows. -/
def checked : Formula → Except Checked.Trap Word
  | word w => return w
  | add a b => do Checked.add (← a.checked) (← b.checked)
  | mul a b => do Checked.mul (← a.checked) (← b.checked)
  | complement a => return .complement (← a.checked)

/-- The words that are given. -/
def words : Formula → List Word
  | word w => [w]
  | add a b => a.words ++ b.words
  | mul a b => a.words ++ b.words
  | complement a => a.words

/-- The formula is a sum or a product. -/
def IsReduced : Formula → Prop
  | add _ _ | mul _ _ => True
  | word _ | complement _ => False

/-- No sum and no product overflows, whatever words go in. -/
theorem checked_eq (e : Formula) : e.checked = .ok e.value := by
  induction e with
  | word w => rfl
  | add a b iha ihb =>
    rw [checked, iha, ihb, Checked.ok_bind, Checked.ok_bind, Checked.add_eq, value]
  | mul a b iha ihb =>
    rw [checked, iha, ihb, Checked.ok_bind, Checked.ok_bind, Checked.mul_eq, value]
  | complement a ih =>
    rw [checked, ih, Checked.ok_bind, value]
    rfl

/-- Wide words and complements of them leave the low bits right, so that every operation can go on
with what the ones below it have left. -/
theorem value_modEq (e : Formula) : (e.value.toNat : Int) ≡ e.integer [ZMOD 32768] := by
  induction e with
  | word w => rfl
  | add a b iha ihb => exact (Word.add_modEq ..).trans (iha.add ihb)
  | mul a b iha ihb => exact (Word.mul_modEq ..).trans (iha.mul ihb)
  | complement a ih => exact (Word.complement_modEq _).trans (ih.sub_left (-1))

theorem isValue_value_of_words {e : Formula} (h : ∀ w ∈ e.words, w.IsValue) : e.value.IsValue := by
  induction e with
  | word w => exact h w (List.mem_singleton_self w)
  | add a b => exact Word.isValue_add ..
  | mul a b => exact Word.isValue_mul ..
  | complement a ih => exact Word.isValue_complement_iff.mpr (ih h)

theorem isValue_value_of_isReduced {e : Formula} (h : e.IsReduced) : e.value.IsValue := by
  cases e with
  | word w => exact h.elim
  | add a b => exact Word.isValue_add ..
  | mul a b => exact Word.isValue_mul ..
  | complement a => exact h.elim

/-- A value of fifteen bits is a remainder. -/
theorem value_eq_emod {e : Formula} (h : e.value.IsValue) :
    (e.value.toNat : Int) = e.integer % 32768 := by
  have hnarrow : e.value.toNat ≤ 32767 := h
  rw [← e.value_modEq]
  omega

/-- Words compute modulo 32768. Whatever words go in, no sum and no product overflows 32 bits, and
the word that comes out is congruent to the integer that the same formula comes to. If only values
go in, or if the formula is a sum or a product, it is that integer reduced into the range of
values. -/
theorem value_modular (e : Formula) :
    e.checked = .ok e.value ∧
      (e.value.toNat : Int) ≡ e.integer [ZMOD 32768] ∧
      ((∀ w ∈ e.words, w.toNat ≤ 32767) ∨ e.IsReduced →
        (e.value.toNat : Int) = e.integer % 32768) := by
  refine ⟨e.checked_eq, e.value_modEq, fun h => value_eq_emod ?_⟩
  exact h.elim isValue_value_of_words isValue_value_of_isReduced

/-- Wide words go in, and the complement is wide as well. The product is reduced all the same. -/
theorem value_modular_wide :
    let e : Formula := .mul (.complement (.word 65534)) (.add (.word 65535) (.word 7))
    e.checked = .ok 6 ∧ e.integer = -4295294970 ∧ (6 : Int) = -4295294970 % 32768 := by
  intro e
  have hvalue : e.value = 6 := by decide
  have hinteger : e.integer = -4295294970 := by decide
  obtain ⟨hchecked, -, hreduced⟩ := e.value_modular
  have hremainder := hreduced (.inr trivial)
  rw [hvalue] at hchecked hremainder
  rw [hinteger] at hremainder
  exact ⟨hchecked, hinteger, hremainder⟩

end Formula

end WordVM
