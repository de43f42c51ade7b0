import WordVM.Input
import WordVM.Instruction
import WordVM.Stack

/-!
# The machine

The state of the machine, the reading of an instruction at its program counter (`Machine.peek`),
and the effect of an instruction on the state (`Machine.perform`). Writing a character and waiting
for input concern the world outside: `perform` only says that they are due.

The program counter and addresses are byte offsets; programs give word addresses.
-/

namespace WordVM

/-- The state of the machine. -/
structure Machine where
  /-- Program and data. -/
  memory : Memory
  /-- The content of the registers. -/
  registers : Registers
  /-- The stack. -/
  stack : Stack
  /-- The byte offset of the next instruction. -/
  pc : Nat
  /-- A halt has been performed. -/
  halted : Bool
  /-- The first fault since the last load, if there was one. -/
  fault : Option Fault
  /-- The characters that have arrived and not been read. -/
  input : List Char
  /-- The destination of the input instruction that waits for a character, if one does. -/
  pending : Option Operand

/-- What performing an instruction asks for next. -/
inductive Effect
  /-- The next instruction. -/
  | next
  /-- The end of the run. -/
  | exit
  /-- The end of the run, for this reason. -/
  | fault (f : Fault)
  /-- This character to be written, and then the next instruction. -/
  | emit (c : Char)
  /-- Input to arrive. -/
  | await
deriving DecidableEq, Repr

/-- What lies at the program counter. -/
inductive Fetch
  /-- The program ceiling has been passed, where every instruction is a halt. -/
  | pastCeiling
  /-- A word that names no opcode. -/
  | invalid (word : Word)
  /-- An instruction, with the fault of its first bad operand word if it has one. -/
  | instruction (i : Instruction) (fault? : Option Fault)

namespace Machine

/-- A machine that holds a memory and has not run. -/
def boot (memory : Memory) : Machine where
  memory
  registers := Vector.replicate registerCount 0
  stack := .empty
  pc := 0
  halted := false
  fault := none
  input := []
  pending := none

/-- A machine that has never been loaded. -/
def initial : Machine := boot .zero

/-- The run is over: nothing happens until another image is loaded. -/
def stopped (m : Machine) : Bool := m.halted || m.fault.isSome

/-- Writes a word to the register that an operand names. A literal names none, and the word is
dropped. -/
def store (m : Machine) (dest : Operand) (w : Word) : Machine :=
  match dest.register? with
  | some r => { m with registers := m.registers.set r w }
  | none => m

/-- Moves the program counter to the address that an operand gives. -/
def jump (m : Machine) (target : Operand) : Machine := { m with pc := target.byteOffset }

/-- The code of the next character of the input, and the machine without it. -/
def takeInput? (m : Machine) : Option (Word × Machine) :=
  match m.input with
  | [] => none
  | c :: rest => some (Input.code c, { m with input := rest })

/-- Adds text to the input. -/
def receive (m : Machine) (text : String) : Machine :=
  { m with input := m.input ++ Input.normalize text.toList }

/-- Reads what lies at the program counter and changes nothing. -/
def peek (m : Machine) : Fetch :=
  if h : m.pc < programCeiling then
    let word := m.memory.word m.pc (by have : m.pc < 0x8000 := h; show m.pc + 2 ≤ 0xFFFE; omega)
    match Opcode.ofCode? word with
    | none => .invalid word
    | some op =>
      .instruction (.decode m.memory m.registers m.pc h op)
        (Instruction.operandFault? m.memory m.registers m.pc h op)
  else
    .pastCeiling

/-- Performs an instruction. The program counter is already past it. -/
def perform (m : Machine) (i : Instruction) : Machine × Effect :=
  match i with
  | ⟨_, .halt, _⟩ => ({ m with halted := true }, .exit)
  | ⟨_, .set, o⟩ => (m.store o[0] o[1].value, .next)
  | ⟨_, .push, o⟩ => ({ m with stack := m.stack.push o[0].value }, .next)
  | ⟨_, .pop, o⟩ =>
    match o[0].register?, m.stack.pop? with
    | some r, some (w, stack) => ({ m with registers := m.registers.set r w, stack }, .next)
    | _, _ => (m, .next)
  | ⟨_, .eq, o⟩ => (m.store o[0] (.ofBool (o[1].value == o[2].value)), .next)
  | ⟨_, .gt, o⟩ => (m.store o[0] (.ofBool (o[1].value > o[2].value)), .next)
  | ⟨_, .jump, o⟩ => (m.jump o[0], .next)
  | ⟨_, .jumpIf, o⟩ => (if o[0].value = 0 then m else m.jump o[1], .next)
  | ⟨_, .jumpUnless, o⟩ => (if o[0].value = 0 then m.jump o[1] else m, .next)
  | ⟨_, .add, o⟩ => (m.store o[0] (.add o[1].value o[2].value), .next)
  | ⟨_, .mult, o⟩ => (m.store o[0] (.mul o[1].value o[2].value), .next)
  | ⟨pc, .mod, o⟩ =>
    if o[0].register?.isSome then
      if o[2].value = 0 then (m, .fault (.divideByZero pc))
      else (m.store o[0] (o[1].value % o[2].value), .next)
    else (m, .next)
  | ⟨_, .and, o⟩ => (m.store o[0] (o[1].value &&& o[2].value), .next)
  | ⟨_, .or, o⟩ => (m.store o[0] (o[1].value ||| o[2].value), .next)
  | ⟨_, .not, o⟩ => (m.store o[0] (.complement o[1].value), .next)
  | ⟨_, .readMem, o⟩ =>
    if o[0].register?.isSome then
      match m.memory.read o[1].byteOffset with
      | .ok w => (m.store o[0] w, .next)
      | .error f => (m, .fault f)
    else (m, .next)
  | ⟨_, .writeMem, o⟩ =>
    match m.memory.write o[0].byteOffset o[1].value with
    | .ok memory => ({ m with memory }, .next)
    | .error f => (m, .fault f)
  | ⟨_, .call, o⟩ =>
    ({ m with stack := m.stack.push (UInt16.ofNat (m.pc / 2)), pc := o[0].byteOffset }, .next)
  | ⟨_, .ret, _⟩ =>
    match m.stack.pop? with
    | some (w, stack) => ({ m with stack, pc := Word.byteOffset w }, .next)
    | none => ({ m with halted := true }, .exit)
  | ⟨_, .out, o⟩ => (m, .emit (Word.toChar o[0].value))
  | ⟨_, .input, o⟩ =>
    match m.takeInput? with
    | some (w, m) => (m.store o[0] w, .next)
    | none => ({ m with pending := some o[0] }, .await)
  | ⟨_, .noop, _⟩ => (m, .next)

end Machine

end WordVM
