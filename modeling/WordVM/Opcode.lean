import WordVM.Word

/-!
# Opcodes

The twenty-two operations, each with the word that encodes it, the number of operand words that
follow that word, and the short name that traces and logs show. `ofCode?` is the inverse of `code`
(`ofCode?_code`, `code_of_ofCode?`).
-/

namespace WordVM

/-- An operation of the machine. -/
inductive Opcode
  /-- Stop the run. -/
  | halt
  /-- Set a register to a value. -/
  | set
  /-- Push a value on the stack. -/
  | push
  /-- Pop the top of the stack into a register. -/
  | pop
  /-- Compare two values for equality. -/
  | eq
  /-- Compare two values for order. -/
  | gt
  /-- Continue at an address. -/
  | jump
  /-- Continue at an address if a value is not zero. -/
  | jumpIf
  /-- Continue at an address if a value is zero. -/
  | jumpUnless
  /-- Add two values. -/
  | add
  /-- Multiply two values. -/
  | mult
  /-- Take the remainder of two values. -/
  | mod
  /-- Combine two words bit by bit with "and". -/
  | and
  /-- Combine two words bit by bit with "or". -/
  | or
  /-- Flip the value bits of a word. -/
  | not
  /-- Read a word of memory into a register. -/
  | readMem
  /-- Write a word to memory. -/
  | writeMem
  /-- Push the address of the next instruction and continue at another. -/
  | call
  /-- Continue at the address on top of the stack. -/
  | ret
  /-- Write a character. -/
  | out
  /-- Read a character into a register. -/
  | input
  /-- Do nothing. -/
  | noop
deriving DecidableEq, Repr

namespace Opcode

/-- The word that encodes an opcode. -/
def code : Opcode → Word
  | halt => 0
  | set => 1
  | push => 2
  | pop => 3
  | eq => 4
  | gt => 5
  | jump => 6
  | jumpIf => 7
  | jumpUnless => 8
  | add => 9
  | mult => 10
  | mod => 11
  | and => 12
  | or => 13
  | not => 14
  | readMem => 15
  | writeMem => 16
  | call => 17
  | ret => 18
  | out => 19
  | input => 20
  | noop => 21

/-- The opcode that a word encodes, if any. -/
def ofCode? (w : Word) : Option Opcode :=
  match w.toNat with
  | 0 => some halt
  | 1 => some set
  | 2 => some push
  | 3 => some pop
  | 4 => some eq
  | 5 => some gt
  | 6 => some jump
  | 7 => some jumpIf
  | 8 => some jumpUnless
  | 9 => some add
  | 10 => some mult
  | 11 => some mod
  | 12 => some and
  | 13 => some or
  | 14 => some not
  | 15 => some readMem
  | 16 => some writeMem
  | 17 => some call
  | 18 => some ret
  | 19 => some out
  | 20 => some input
  | 21 => some noop
  | _ => none

/-- How many operand words follow the opcode word. -/
def arity : Opcode → Nat
  | halt | ret | noop => 0
  | push | pop | jump | call | out | input => 1
  | set | jumpIf | jumpUnless | not | readMem | writeMem => 2
  | eq | gt | add | mult | mod | and | or => 3

/-- How many bytes an instruction takes in memory, its opcode word included. -/
def width (op : Opcode) : Nat := 2 * (1 + op.arity)

/-- The short name that traces and logs show. -/
def mnemonic : Opcode → String
  | halt => "HALT"
  | set => "SET"
  | push => "PUSH"
  | pop => "POP"
  | eq => "EQ"
  | gt => "GT"
  | jump => "JMP"
  | jumpIf => "JT"
  | jumpUnless => "JF"
  | add => "ADD"
  | mult => "MULT"
  | mod => "MOD"
  | and => "AND"
  | or => "OR"
  | not => "NOT"
  | readMem => "RMEM"
  | writeMem => "WMEM"
  | call => "CALL"
  | ret => "RET"
  | out => "OUT"
  | input => "IN"
  | noop => "NOOP"

theorem arity_le (op : Opcode) : op.arity ≤ 3 := by cases op <;> decide

@[simp] theorem ofCode?_code (op : Opcode) : ofCode? op.code = some op := by cases op <;> rfl

theorem code_of_ofCode? {w : Word} {op : Opcode} (h : ofCode? w = some op) : op.code = w := by
  apply UInt16.toNat_inj.mp
  unfold ofCode? at h
  split at h <;> simp_all <;> subst h <;> rfl

end Opcode

end WordVM
