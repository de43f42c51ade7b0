import WordVM.Fault

/-!
# Operands

An operand word with bit 15 clear is a literal value. With bit 15 set, its fifteen low bits name a
register, and a decoded operand carries the content that the register had at that moment, so later
writes do not reach it. Words that name no register are refused.
-/

namespace WordVM

/-- How many registers the machine has. -/
abbrev registerCount : Nat := 8

/-- The content of all registers. -/
abbrev Registers := Vector Word registerCount

/-- A decoded operand. -/
inductive Operand
  /-- A value written in the program. -/
  | literal (value : Word)
  /-- A register, with its content at the time of decoding. -/
  | register (index : Fin registerCount) (value : Word)
deriving DecidableEq, Repr

namespace Operand

/-- The bit of an operand word that tells a register from a literal. -/
@[inline] def registerFlag : BitField 16 := { width := 1, offset := 15 }

/-- The bits of an operand word that hold the literal value or the register's index. -/
@[inline] def payload : BitField 16 := { width := 15, offset := 0 }

/-- Reads an operand word against the registers as they are now. -/
def decode (registers : Registers) (raw : Word) : Except Fault Operand :=
  let content : Word := UInt16.ofBitVec (payload.value raw.toBitVec)
  if registerFlag.isSet raw.toBitVec then
    if h : content.toNat < registerCount then
      .ok (.register ⟨content.toNat, h⟩ registers[content.toNat])
    else
      .error (.invalidNumber raw)
  else
    .ok (.literal content)

/-- The word that stands for an operand in a program. -/
def encode : Operand → Word
  | literal value => value
  | register index _ => 0x8000 + UInt16.ofNat index

/-- The value that an operand contributes. -/
def value : Operand → Word
  | literal value => value
  | register _ value => value

/-- The register that an operand names, if any. -/
def register? : Operand → Option (Fin registerCount)
  | literal _ => none
  | register index _ => some index

/-- The byte offset of the word that an operand addresses. -/
def byteOffset (o : Operand) : Nat := Word.byteOffset o.value

end Operand

end WordVM
