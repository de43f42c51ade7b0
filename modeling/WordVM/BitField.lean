/-!
# Bit fields

A field of an `n`-bit word is a run of adjacent bits, given by its width and by the number of bits
below it. `BitField.value` is the number that those bits spell, and `BitField.isSet` says that all
of them are ones. Both go through one mask, so a field never sees a bit outside its run.
-/

namespace WordVM

/-- A run of adjacent bits of an `n`-bit word. -/
structure BitField (n : Nat) where
  /-- How many bits the field has. -/
  width : Nat
  /-- How many bits of the word lie below the field. -/
  offset : Nat
  /-- The field lies within the word. -/
  fits : width + offset ≤ n := by decide

namespace BitField

variable {n : Nat}

/-- The word whose ones are exactly the bits of the field. -/
@[inline] def mask (f : BitField n) : BitVec n := (((1 : BitVec n) <<< f.width) - 1) <<< f.offset

/-- The number that the field's bits spell, moved down to the low end of the word. -/
@[inline] def value (f : BitField n) (v : BitVec n) : BitVec n := (v &&& f.mask) >>> f.offset

/-- Every bit of the field is a one. -/
@[inline] def isSet (f : BitField n) (v : BitVec n) : Bool := v &&& f.mask == f.mask

end BitField

end WordVM
