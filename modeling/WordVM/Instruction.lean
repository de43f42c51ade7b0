import WordVM.Memory
import WordVM.Opcode
import WordVM.Operand

/-!
# Instructions

An instruction is an opcode with exactly as many operands as the opcode takes, and the byte offset
it was read from. Its operands are decoded against the registers at the time of reading.

An operand word that does not decode reads as a literal zero, so the instruction can still run
once. The fault it causes is handed out beside the instruction (`operandFault?`); of several, it is
the one nearest the opcode.
-/

namespace WordVM

/-- The byte offset from which on no instruction is read. The rest of memory is data only. -/
abbrev programCeiling : Nat := 0x8000

/-- An instruction as it was read from memory. -/
structure Instruction where
  /-- The byte offset of the opcode word. -/
  pc : Nat
  /-- What the instruction does. -/
  opcode : Opcode
  /-- What it does it with, in program order. -/
  operands : Vector Operand opcode.arity
deriving DecidableEq, Repr

namespace Instruction

/-- The halt that stands at every offset from the program ceiling on. -/
def halt (pc : Nat) : Instruction := ⟨pc, .halt, #v[]⟩

/-- The words that follow an opcode word below the program ceiling. -/
def operandWords (memory : Memory) (pc : Nat) (h : pc < programCeiling) (op : Opcode) :
    Vector Word op.arity :=
  Vector.ofFn fun k => memory.word (pc + 2 * (k + 1)) (by
    have := op.arity_le
    have : pc < 0x8000 := h
    show pc + 2 * (k + 1) + 2 ≤ 0xFFFE
    omega)

/-- Reads the operands of the opcode whose word lies at `pc`. -/
def decode (memory : Memory) (registers : Registers) (pc : Nat) (h : pc < programCeiling)
    (op : Opcode) : Instruction :=
  ⟨pc, op, (operandWords memory pc h op).map fun raw =>
    match Operand.decode registers raw with
    | .ok o => o
    | .error _ => .literal 0⟩

/-- The fault of the first operand word that does not decode, if there is one. -/
def operandFault? (memory : Memory) (registers : Registers) (pc : Nat) (h : pc < programCeiling)
    (op : Opcode) : Option Fault :=
  (operandWords memory pc h op).toList.findSome? fun raw =>
    match Operand.decode registers raw with
    | .ok _ => none
    | .error f => some f

/-- The words that stand for an instruction in a program. -/
def encode (i : Instruction) : List Word :=
  i.opcode.code :: i.operands.toList.map Operand.encode

end Instruction

end WordVM
