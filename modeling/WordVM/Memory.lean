import WordVM.Fault

/-!
# Memory

Memory is a fixed number of bytes. Words are read and written at any byte offset, also an odd one,
as long as both of their bytes lie within memory; `read` and `write` refuse exactly the other
offsets (`read_eq_error_iff`, `write_eq_error_iff`). A program image fills memory from the bottom,
and what it leaves free is zero (`getElem_ofImage`).

A word just written reads back (`read_write`), words that share no byte with it are unchanged
(`read_write_of_disjoint`), and `getElem_write` says what every byte is after a write.
-/

namespace WordVM

/-- How many bytes memory has: one word less than sixteen address bits reach. -/
abbrev Memory.size : Nat := 0xFFFE

/-- The bytes of memory. -/
structure Memory where
  bytes : Vector UInt8 Memory.size
deriving DecidableEq

namespace Memory

/-- Memory with nothing in it. -/
def zero : Memory := ⟨Vector.replicate size 0⟩

/-- Memory that holds a program image from offset zero on, followed by zeros. -/
def ofImage (image : List UInt8) (fits : image.length ≤ size) : Memory :=
  ⟨(image ++ List.replicate (size - image.length) 0).toArray, by
    rw [List.size_toArray, List.length_append, List.length_replicate]; omega⟩

theorem getElem_ofImage (image : List UInt8) (fits : image.length ≤ size) (i : Nat)
    (hi : i < size) : (ofImage image fits).bytes[i] = image.getD i 0 := by
  simp only [ofImage, Vector.getElem_mk, List.getElem_toArray, List.getD_eq_getElem?_getD]
  by_cases h : i < image.length
  · rw [List.getElem_append_left h, List.getElem?_eq_getElem h, Option.getD_some]
  · rw [List.getElem_append_right (by omega), List.getElem_replicate,
      List.getElem?_eq_none (by omega), Option.getD_none]

/-- The word at a byte offset within memory. -/
def word (m : Memory) (i : Nat) (h : i + 2 ≤ size) : Word :=
  Word.ofBytes m.bytes[i] m.bytes[i + 1]

/-- Reads the word at a byte offset. -/
def read (m : Memory) (i : Nat) : Except Fault Word :=
  if h : i + 2 ≤ size then .ok (m.word i h) else .error (.addressOutOfRange i)

/-- Writes a word at a byte offset. -/
@[inline] def write (m : Memory) (i : Nat) (w : Word) : Except Fault Memory :=
  if h : i + 2 ≤ size then
    .ok ⟨(m.bytes.set i (Word.lowByte w)).set (i + 1) (Word.highByte w)⟩
  else
    .error (.addressOutOfRange i)

theorem read_eq_error_iff {m : Memory} {i : Nat} {f : Fault} :
    m.read i = .error f ↔ size < i + 2 ∧ f = .addressOutOfRange i := by
  unfold read
  split
  · simp only [reduceCtorEq, false_iff]
    omega
  · next h =>
    rw [Except.error.injEq, eq_comm, iff_and_self]
    exact fun _ => Nat.not_le.mp h

theorem write_eq_error_iff {m : Memory} {i : Nat} {w : Word} {f : Fault} :
    m.write i w = .error f ↔ size < i + 2 ∧ f = .addressOutOfRange i := by
  unfold write
  split
  · simp only [reduceCtorEq, false_iff]
    omega
  · next h =>
    rw [Except.error.injEq, eq_comm, iff_and_self]
    exact fun _ => Nat.not_le.mp h

theorem read_write {m m' : Memory} {i : Nat} {w : Word} (h : m.write i w = .ok m') :
    m'.read i = .ok w := by
  unfold write at h
  split at h
  · cases h
    rename_i hi
    simp [read, hi, word]
  · exact nomatch h

theorem getElem_write {m m' : Memory} {i : Nat} {w : Word} (h : m.write i w = .ok m')
    {j : Nat} (hj : j < size) :
    m'.bytes[j] =
      if j = i then Word.lowByte w else if j = i + 1 then Word.highByte w else m.bytes[j] := by
  unfold write at h
  split at h
  · cases h
    simp only [Vector.getElem_set]
    grind
  · exact nomatch h

/-- A write leaves the words alone that share no byte with the word written. -/
theorem read_write_of_disjoint {m m' : Memory} {i j : Nat} {w : Word} (h : m.write i w = .ok m')
    (hdisjoint : j + 2 ≤ i ∨ i + 2 ≤ j) : m'.read j = m.read j := by
  unfold read
  split
  · next hj =>
    simp only [word, getElem_write h]
    rw [if_neg (by omega), if_neg (by omega), if_neg (by omega), if_neg (by omega)]
  · rfl

end Memory

end WordVM
