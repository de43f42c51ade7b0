import WordVM.Proofs.Encoding
import WordVM.Proofs.Erasure

/-!
# Memory as a store of words

Words may be written at any byte offsets, so that they overlap, and a write that leaves memory is
refused. What memory holds after any number of writes, successful or not, is said byte by byte: at
each offset the byte that was written there last, or else that of the program image, or else zero
(`Memory.byteAfter`, `Memory.toNat_getElem_attemptAll`). From this, `attemptAll_faithful` gives what
reads answer. It also says that on plain lists, where words are copied in and out, nothing is
different.
-/

namespace WordVM

/-- A word to be written at a byte offset. -/
structure Write where
  offset : Nat
  word : Word
deriving DecidableEq, Repr

namespace Write

/-- How a write is answered, whatever memory holds. -/
def answer (w : Write) : Except Fault Unit :=
  if w.offset + 2 ≤ Memory.size then .ok () else .error (.addressOutOfRange w.offset)

/-- The byte that a write leaves at an offset, if it succeeds and covers the offset. -/
def byteAt? (w : Write) (j : Nat) : Option Nat :=
  if w.offset + 2 ≤ Memory.size then
    if j = w.offset then some (w.word.toNat % 256)
    else if j = w.offset + 1 then some (w.word.toNat / 256)
    else none
  else none

end Write

namespace Memory

/-! ## Writes -/

/-- Writes a word. A write that is refused leaves memory as it is. -/
def attempt (m : Memory) (w : Write) : Except Fault Unit × Memory :=
  match m.write w.offset w.word with
  | .ok m' => (.ok (), m')
  | .error f => (.error f, m)

/-- Writes words one after the other, and keeps the answers. -/
def attemptAll : List Write → Memory → List (Except Fault Unit) × Memory
  | [], m => ([], m)
  | w :: rest, m =>
    ((m.attempt w).1 :: (attemptAll rest (m.attempt w).2).1, (attemptAll rest (m.attempt w).2).2)

variable {w : Write}

/-- Where both bytes lie within memory, a write succeeds. -/
theorem attempt_of_le (m : Memory) (h : w.offset + 2 ≤ size) :
    ∃ m', m.write w.offset w.word = .ok m' ∧ m.attempt w = (.ok (), m') := by
  cases hwrite : m.write w.offset w.word with
  | error f =>
    have hlt := (write_eq_error_iff.mp hwrite).1
    omega
  | ok m' => exact ⟨m', rfl, by rw [attempt, hwrite]⟩

/-- Anywhere else, it is refused. -/
theorem attempt_of_lt (m : Memory) (h : size < w.offset + 2) :
    m.attempt w = (.error (.addressOutOfRange w.offset), m) := by
  have hwrite : m.write w.offset w.word = .error (.addressOutOfRange w.offset) :=
    write_eq_error_iff.mpr ⟨h, rfl⟩
  rw [attempt, hwrite]

theorem attempt_fst (m : Memory) (w : Write) : (m.attempt w).1 = w.answer := by
  rw [Write.answer]
  split
  · next hle =>
    obtain ⟨m', -, h⟩ := m.attempt_of_le hle
    rw [h]
  · next hlt => rw [m.attempt_of_lt (Nat.lt_of_not_le hlt)]

theorem attemptAll_fst (writes : List Write) (m : Memory) :
    (m.attemptAll writes).1 = writes.map Write.answer := by
  induction writes generalizing m with
  | nil => rfl
  | cons w rest ih => rw [attemptAll, List.map_cons, attempt_fst, ih]

/-! ## Bytes after writes -/

/-- What a write leaves at an offset: its own byte if it has one there, and else the old one. -/
theorem toNat_getElem_attempt (m : Memory) (w : Write) {j : Nat} (hj : j < size) :
    ((m.attempt w).2.bytes[j]).toNat = (w.byteAt? j).getD m.bytes[j].toNat := by
  rw [Write.byteAt?]
  split
  · next hle =>
    obtain ⟨m', hwrite, h⟩ := m.attempt_of_le hle
    simp only [h, getElem_write hwrite hj]
    split
    · exact Word.toNat_lowByte _
    · split
      · exact Word.toNat_highByte _
      · rfl
  · next hlt =>
    simp only [m.attempt_of_lt (Nat.lt_of_not_le hlt)]
    rfl

/-- The byte that was written last at an offset, if one was. -/
def lastByte? (writes : List Write) (j : Nat) : Option Nat :=
  writes.reverse.findSome? (·.byteAt? j)

theorem lastByte?_cons (w : Write) (rest : List Write) (j : Nat) :
    lastByte? (w :: rest) j = (lastByte? rest j).or (w.byteAt? j) := by
  rw [lastByte?, lastByte?, List.reverse_cons, List.findSome?_append, List.findSome?_singleton]

/-- The byte at an offset after writes to a program image. -/
def byteAfter (image : List UInt8) (writes : List Write) (j : Nat) : Nat :=
  (lastByte? writes j).getD (image.getD j 0).toNat

/-- At each offset, memory holds the byte that was written there last. -/
theorem toNat_getElem_attemptAll (writes : List Write) (m : Memory) {j : Nat} (hj : j < size) :
    ((m.attemptAll writes).2.bytes[j]).toNat = (lastByte? writes j).getD m.bytes[j].toNat := by
  induction writes generalizing m with
  | nil => rfl
  | cons w rest ih =>
    -- The first write counts only where none of the others does.
    rw [attemptAll, lastByte?_cons]
    dsimp only
    rw [ih, toNat_getElem_attempt]
    cases lastByte? rest j <;> rfl

/-- After writes to a loaded image, a read puts the two bytes together that were written last. -/
theorem read_attemptAll {image : List UInt8} (fits : image.length ≤ size) (writes : List Write)
    {i : Nat} (h : i + 2 ≤ size) :
    ∃ w, ((ofImage image fits).attemptAll writes).2.read i = .ok w ∧
      w.toNat = byteAfter image writes i + 256 * byteAfter image writes (i + 1) := by
  refine ⟨_, dif_pos h, ?_⟩
  rw [word, Word.toNat_ofBytes, toNat_getElem_attemptAll, toNat_getElem_attemptAll,
    getElem_ofImage, getElem_ofImage]
  rfl

end Memory

/-! ## The same on plain lists -/

namespace Checked

/-- Writes a word. A write that is refused leaves memory as it is. -/
def attempt (memory : List UInt8) (w : Write) : Except Trap (Except Fault Unit × List UInt8) := do
  match ← writeWord memory w.offset w.word with
  | .ok memory => return (.ok (), memory)
  | .error f => return (.error f, memory)

/-- Writes words one after the other, and keeps the answers. -/
def attemptAll : List Write → List UInt8 → Except Trap (List (Except Fault Unit) × List UInt8)
  | [], memory => return ([], memory)
  | w :: rest, memory => do
    let (answer, memory) ← attempt memory w
    let (answers, memory) ← attemptAll rest memory
    return (answer :: answers, memory)

theorem attempt_toList (m : Memory) {w : Write} (h : w.offset + 2 < offsetBound) :
    attempt m.bytes.toList w = .ok ((m.attempt w).1, (m.attempt w).2.bytes.toList) := by
  rw [attempt, writeWord_toList m h, ok_bind, Memory.attempt]
  cases m.write w.offset w.word <;> rfl

/-- Without an overflow, writes to a list do what they do to memory. -/
theorem attemptAll_toList (m : Memory) {writes : List Write}
    (h : ∀ w ∈ writes, w.offset + 2 < offsetBound) :
    attemptAll writes m.bytes.toList =
      .ok ((m.attemptAll writes).1, (m.attemptAll writes).2.bytes.toList) := by
  induction writes generalizing m with
  | nil => rfl
  | cons w rest ih =>
    rw [List.forall_mem_cons] at h
    rw [attemptAll, attempt_toList m h.1, ok_bind]
    dsimp only
    rw [ih _ h.2]
    rfl

end Checked

namespace Memory

/-- Memory is a faithful store of words. Load any image that fits, and then write any words at any
byte offsets.
* Each write succeeds if both of its bytes lie within memory, and otherwise answers that the address
  is out of range.
* A read answers in the same way. Where it succeeds, it gives the byte at the offset and 256 times
  the next one, and each of them is the last one that was written there, or that of the image, or
  zero beyond the image.
* In particular, what is written next reads back, and words that do not overlap it stay; if it is
  refused, nothing changes.
* On a plain list, where words are copied into slices and out of them, the same comes of the same
  writes, and the list keeps its length. This is for the offsets to which two can be added. -/
theorem attemptAll_faithful (image : List UInt8) (fits : image.length ≤ size)
    (writes : List Write) :
    let after := (ofImage image fits).attemptAll writes
    after.1 = writes.map Write.answer ∧
      (∀ i, (i + 2 ≤ size → ∃ w, after.2.read i = .ok w ∧
          w.toNat = byteAfter image writes i + 256 * byteAfter image writes (i + 1)) ∧
        (size < i + 2 → after.2.read i = .error (.addressOutOfRange i))) ∧
      (∀ w : Write,
        (w.offset + 2 ≤ size → ∃ m, after.2.attempt w = (.ok (), m) ∧
          m.read w.offset = .ok w.word ∧
          ∀ j, j + 2 ≤ w.offset ∨ w.offset + 2 ≤ j → m.read j = after.2.read j) ∧
        (size < w.offset + 2 →
          after.2.attempt w = (.error (.addressOutOfRange w.offset), after.2))) ∧
      ((∀ w ∈ writes, w.offset + 2 < Checked.offsetBound) →
        ∃ bytes, Checked.attemptAll writes (image ++ List.replicate (size - image.length) 0) =
            .ok (after.1, bytes) ∧
          bytes.length = 65534 ∧
          ∀ i, i + 2 < Checked.offsetBound → Checked.readWord bytes i = .ok (after.2.read i)) := by
  intro after
  refine ⟨attemptAll_fst writes _, ?_, ?_, ?_⟩
  · intro i
    exact ⟨read_attemptAll fits writes, fun h => read_eq_error_iff.mpr ⟨h, rfl⟩⟩
  · intro w
    refine ⟨fun h => ?_, after.2.attempt_of_lt⟩
    obtain ⟨m, hwrite, hattempt⟩ := after.2.attempt_of_le h
    exact ⟨m, hattempt, read_write hwrite, fun _ hdisjoint =>
      read_write_of_disjoint hwrite hdisjoint⟩
  · intro h
    have hlists := Checked.attemptAll_toList (ofImage image fits) h
    rw [toList_ofImage] at hlists
    exact ⟨_, hlists, Vector.length_toList, fun i hi => Checked.readWord_toList _ hi⟩

/-- Three words that overlap each other and a short image, and one write too far. -/
theorem attemptAll_faithful_overlapping :
    let image : List UInt8 := [1, 2, 3]
    let writes : List Write := [⟨1, 0xABCD⟩, ⟨65533, 5⟩, ⟨2, 0x1234⟩, ⟨3, 0x5678⟩]
    ∃ fits : image.length ≤ size, let after := (ofImage image fits).attemptAll writes
      after.1 = [.ok (), .error (.addressOutOfRange 65533), .ok (), .ok ()] ∧
        after.2.read 0 = .ok 0xCD01 ∧ after.2.read 2 = .ok 0x7834 ∧ after.2.read 5 = .ok 0 ∧
        ∃ bytes, Checked.attemptAll writes (image ++ List.replicate (size - image.length) 0) =
            .ok (after.1, bytes) ∧ bytes.length = 65534 := by
  intro image writes
  have fits : image.length ≤ size := by decide
  obtain ⟨hanswers, hread, -, hlists⟩ := attemptAll_faithful image fits writes
  refine ⟨fits, hanswers.trans (by decide), ?_, ?_, ?_, ?_⟩
  · obtain ⟨w, hw, hbytes⟩ := (hread 0).1 (by decide)
    obtain rfl : w = 0xCD01 := UInt16.toNat_inj.mp (hbytes.trans (by decide))
    exact hw
  · obtain ⟨w, hw, hbytes⟩ := (hread 2).1 (by decide)
    obtain rfl : w = 0x7834 := UInt16.toNat_inj.mp (hbytes.trans (by decide))
    exact hw
  · obtain ⟨w, hw, hbytes⟩ := (hread 5).1 (by decide)
    obtain rfl : w = 0 := UInt16.toNat_inj.mp (hbytes.trans (by decide))
    exact hw
  · obtain ⟨bytes, hbytes, hlength, -⟩ := hlists (by decide)
    exact ⟨bytes, hbytes, hlength⟩

end Memory

end WordVM
