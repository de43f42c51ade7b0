import WordVM.Proofs.History

/-!
# Checked sessions

The types of the machine carry its bounds: memory and registers have their sizes, an instruction has
the operands of its opcode, a register operand names a register that exists, and offsets are
numbers of any size. In this module the same machine works on plain lists, without any of these
bounds. Instead it looks whether there is a result, wherever it takes an element by its index,
copies bytes, forms a sum, a product, a difference or a remainder, or turns an offset into a word,
and it stops short with a `Trap` if there is none.

Where the machine gives a fault, for an address outside memory or an operand word that names no
register, that is a fault here as well, and no trap. The stack and the input have room for all that
comes.
-/

namespace WordVM.Checked

/-! ## Operations that may trap -/

/-- Why a checked session stops short. -/
inductive Trap
  /-- No element of a list has this index. -/
  | index
  /-- Bytes do not have the length of the place they are copied to. -/
  | length
  /-- A sum or a product is too large. -/
  | overflow
  /-- A difference is negative. -/
  | underflow
  /-- A number loses bits. -/
  | narrowing
  /-- A number is divided by zero. -/
  | zeroDivisor
deriving DecidableEq, Repr

/-- Offsets stay below this bound. It is the least one that any platform has, with offsets of 32
bits. -/
abbrev offsetBound : Nat := 2 ^ 32

variable {α : Type}

/-- The element of a list with an index. -/
def get (xs : List α) (i : Nat) : Except Trap α :=
  match xs[i]? with
  | some x => .ok x
  | none => .error .index

/-- Replaces the element of a list with an index. -/
def put (xs : List α) (i : Nat) (x : α) : Except Trap (List α) :=
  if i < xs.length then .ok (xs.set i x) else .error .index

/-- The elements of a list from `start` on and before `stop`, if the list reaches that far. -/
def slice? (xs : List α) (start stop : Nat) : Option (List α) :=
  if start ≤ stop ∧ stop ≤ xs.length then some (xs.extract start stop) else none

/-- Copies a list over the elements of another from `start` on and before `stop`. -/
def copyTo (xs : List α) (start stop : Nat) (ys : List α) : Except Trap (List α) :=
  if stop - start = ys.length then .ok (xs.take start ++ ys ++ xs.drop stop) else .error .length

/-- The sum of two offsets. -/
def addOffset (a b : Nat) : Except Trap Nat :=
  if a + b < offsetBound then .ok (a + b) else .error .overflow

/-- The product of two offsets. -/
def mulOffset (a b : Nat) : Except Trap Nat :=
  if a * b < offsetBound then .ok (a * b) else .error .overflow

/-- The difference of two offsets. -/
def subOffset (a b : Nat) : Except Trap Nat :=
  if b ≤ a then .ok (a - b) else .error .underflow

/-- The sum of two numbers of 32 bits. -/
def addWide (a b : UInt32) : Except Trap UInt32 :=
  if a.toNat + b.toNat < 2 ^ 32 then .ok (a + b) else .error .overflow

/-- The product of two numbers of 32 bits. -/
def mulWide (a b : UInt32) : Except Trap UInt32 :=
  if a.toNat * b.toNat < 2 ^ 32 then .ok (a * b) else .error .overflow

/-- An offset as a word. -/
def narrow (n : Nat) : Except Trap Word :=
  if n < 2 ^ 16 then .ok (.ofNat n) else .error .narrowing

/-- The remainder of two words. -/
def rem (a b : Word) : Except Trap Word :=
  if b = 0 then .error .zeroDivisor else .ok (a % b)

/-! ## Words -/

/-- The sum of two words as a fifteen-bit value. -/
def add (a b : Word) : Except Trap Word := do
  return Word.wrap (← addWide a.toUInt32 b.toUInt32)

/-- The product of two words as a fifteen-bit value. -/
def mul (a b : Word) : Except Trap Word := do
  return Word.wrap (← mulWide a.toUInt32 b.toUInt32)

/-- Where in memory the word with address `w` begins, counted in bytes. -/
def byteOffset (w : Word) : Except Trap Nat := mulOffset w.toNat 2

/-- Reads the word at a byte offset. -/
def readWord (memory : List UInt8) (i : Nat) : Except Trap (Except Fault Word) := do
  match slice? memory i (← addOffset i 2) with
  | some [low, high] => return .ok (Word.ofBytes low high)
  | _ => return .error (.addressOutOfRange i)

/-- Writes a word at a byte offset. -/
def writeWord (memory : List UInt8) (i : Nat) (w : Word) :
    Except Trap (Except Fault (List UInt8)) := do
  let stop ← addOffset i 2
  match slice? memory i stop with
  | some _ => return .ok (← copyTo memory i stop (Word.toBytes w))
  | none => return .error (.addressOutOfRange i)

/-! ## Instructions -/

/-- A decoded operand. The index may be that of no register. -/
inductive Operand
  /-- A value written in the program. -/
  | literal (value : Word)
  /-- A register, with its content at the time of decoding. -/
  | register (index : Nat) (value : Word)
deriving DecidableEq, Repr

namespace Operand

/-- Reads an operand word against the registers as they are now. -/
def decode (registers : List Word) (raw : Word) : Except Fault Operand :=
  let content : Word := UInt16.ofBitVec (WordVM.Operand.payload.value raw.toBitVec)
  if WordVM.Operand.registerFlag.isSet raw.toBitVec then
    match registers[content.toNat]? with
    | some value => .ok (.register content.toNat value)
    | none => .error (.invalidNumber raw)
  else
    .ok (.literal content)

/-- The value that an operand contributes. -/
def value : Operand → Word
  | literal value => value
  | register _ value => value

/-- The index of the register that an operand names, if any. -/
def register? : Operand → Option Nat
  | literal _ => none
  | register index _ => some index

end Operand

/-- An instruction as it was read from memory. There may be any number of operands. -/
structure Instruction where
  pc : Nat
  opcode : Opcode
  operands : List Operand
deriving DecidableEq, Repr

/-- How many bytes an instruction takes in memory, its opcode word included. -/
def width (op : Opcode) : Except Trap Nat := do mulOffset 2 (← addOffset 1 op.arity)

/-- Reads the word of the operand with this number. The operands are counted from one. -/
def readOperand (memory : List UInt8) (pc slot : Nat) : Except Trap (Except Fault Word) := do
  readWord memory (← addOffset pc (← mulOffset slot 2))

/-- Reads the operands with the numbers from `slot` down to one, the last one first, and then turns
the order around. The fault is that of the bad word that was read last. -/
def decodeOperands (memory : List UInt8) (registers : List Word) (pc : Nat) :
    (slot : Nat) → List Operand → Option Fault →
      Except Trap (Except Fault (List Operand × Option Fault))
  | 0, operands, fault? => return .ok (operands.reverse, fault?)
  | slot + 1, operands, fault? => do
    match ← readOperand memory pc (slot + 1) with
    | .error f => return .error f
    | .ok raw =>
      match Operand.decode registers raw with
      | .ok o => decodeOperands memory registers pc slot (operands ++ [o]) fault?
      -- The instruction can still run once, and an operand nearer the opcode takes the blame.
      | .error f => decodeOperands memory registers pc slot (operands ++ [.literal 0]) (some f)

/-! ## The machine -/

/-- The state of the machine. Memory and registers may have any size. -/
structure Machine where
  memory : List UInt8
  registers : List Word
  stack : Stack
  pc : Nat
  halted : Bool
  fault : Option Fault
  input : List Char
  pending : Option Operand

namespace Machine

/-- A machine that holds a memory and has not run. -/
def boot (memory : List UInt8) : Machine where
  memory
  registers := List.replicate registerCount 0
  stack := .empty
  pc := 0
  halted := false
  fault := none
  input := []
  pending := none

/-- The run is over. -/
def stopped (m : Machine) : Bool := m.halted || m.fault.isSome

/-- Writes a word to the register that an operand names. -/
def store (m : Machine) (dest : Operand) (w : Word) : Except Trap Machine := do
  match dest.register? with
  | some r => return { m with registers := ← put m.registers r w }
  | none => return m

/-- Moves the program counter to the address that an operand gives. -/
def jump (m : Machine) (target : Operand) : Except Trap Machine := do
  return { m with pc := ← byteOffset target.value }

/-- The code of the next character of the input, and the machine without it. -/
def takeInput? (m : Machine) : Option (Word × Machine) :=
  match m.input with
  | [] => none
  | c :: rest => some (Input.code c, { m with input := rest })

/-- Stores what an operation makes of the second operand and the third. -/
def combine (m : Machine) (operands : List Operand) (f : Word → Word → Except Trap Word) :
    Except Trap (Machine × Effect) := do
  let dest ← get operands 0
  let w ← f (← get operands 1).value (← get operands 2).value
  return (← m.store dest w, .next)

/-- Performs an instruction. The program counter is already past it. -/
def perform (m : Machine) (i : Instruction) : Except Trap (Machine × Effect) := do
  let o := i.operands
  match i.opcode with
  | .halt => return ({ m with halted := true }, .exit)
  | .set => return (← m.store (← get o 0) (← get o 1).value, .next)
  | .push => return ({ m with stack := m.stack.push (← get o 0).value }, .next)
  | .pop =>
    -- Without a register to pop into, the stack stays as it is.
    match (← get o 0).register?, m.stack.pop? with
    | some r, some (w, stack) =>
      return ({ m with registers := ← put m.registers r w, stack }, .next)
    | _, _ => return (m, .next)
  | .eq => m.combine o fun a b => return .ofBool (a == b)
  | .gt => m.combine o fun a b => return .ofBool (a > b)
  | .jump => return (← m.jump (← get o 0), .next)
  | .jumpIf =>
    if (← get o 0).value = 0 then return (m, .next)
    else return (← m.jump (← get o 1), .next)
  | .jumpUnless =>
    if (← get o 0).value = 0 then return (← m.jump (← get o 1), .next)
    else return (m, .next)
  | .add => m.combine o add
  | .mult => m.combine o mul
  | .mod =>
    -- The divisor only matters if there is a register for the result.
    if (← get o 0).register?.isSome then
      if (← get o 2).value = 0 then return (m, .fault (.divideByZero i.pc))
      else m.combine o rem
    else return (m, .next)
  | .and => m.combine o fun a b => return a &&& b
  | .or => m.combine o fun a b => return a ||| b
  | .not => return (← m.store (← get o 0) (.complement (← get o 1).value), .next)
  | .readMem =>
    if (← get o 0).register?.isSome then
      match ← readWord m.memory (← byteOffset (← get o 1).value) with
      | .ok w => return (← m.store (← get o 0) w, .next)
      | .error f => return (m, .fault f)
    else return (m, .next)
  | .writeMem =>
    match ← writeWord m.memory (← byteOffset (← get o 0).value) (← get o 1).value with
    | .ok memory => return ({ m with memory }, .next)
    | .error f => return (m, .fault f)
  | .call =>
    -- A return leads behind the call, if a word can hold the address.
    let m := { m with stack := m.stack.push (← narrow (m.pc / 2)) }
    return (← m.jump (← get o 0), .next)
  | .ret =>
    match m.stack.pop? with
    | some (w, stack) => return ({ m with stack, pc := ← byteOffset w }, .next)
    | none => return ({ m with halted := true }, .exit)
  | .out => return (m, .emit (Word.toChar (← get o 0).value))
  | .input =>
    match m.takeInput? with
    | some (w, m) => return (← m.store (← get o 0) w, .next)
    | none => return ({ m with pending := some (← get o 0) }, .await)
  | .noop => return (m, .next)

end Machine

/-! ## Sessions -/

/-- A machine and its host. -/
structure Session (σ : Type) where
  machine : Machine
  host : σ

/-- A call that a tracer receives. -/
inductive Call
  /-- An instruction is about to be performed, with these registers and this stack. -/
  | instruction (i : Instruction) (registers : List Word) (stack : Stack)
  /-- The word at this byte offset names no opcode. -/
  | invalid (pc : Nat) (word : Word) (registers : List Word) (stack : Stack)

/-- The instruction that a call shows, if it shows one. -/
def Call.instruction? : Call → Option Instruction
  | .instruction i _ _ => some i
  | .invalid .. => none

namespace Session

variable {σ : Type} [Host σ]

/-- Replaces memory with a program image and starts afresh. An image that does not fit changes
nothing. -/
def load (s : Session σ) (image : List UInt8) : Session σ :=
  if image.length ≤ Memory.size then
    ⟨.boot (image ++ List.replicate (Memory.size - image.length) 0),
      Host.log s.host (.imageLoaded image.length)⟩
  else
    s

/-- Adds text to the machine's input. -/
def sendInput (s : Session σ) (text : String) : Session σ :=
  ⟨{ s.machine with input := s.machine.input ++ Input.normalize text.toList },
    Host.log s.host (.inputReceived text.length)⟩

/-- Records a fault and logs it, unless an earlier one is recorded. -/
def fail (s : Session σ) (f : Fault) : Session σ :=
  match s.machine.fault with
  | some _ => s
  | none => ⟨{ s.machine with fault := some f }, Host.log s.host (.stopping s.machine.pc f)⟩

/-- Reads the instruction at the program counter and moves past it. -/
def fetch (s : Session σ) : Except Trap (Except Fault Instruction × Session σ) := do
  let m := s.machine
  if m.pc < programCeiling then
    match ← readWord m.memory m.pc with
    | .error f => return (.error f, s.fail f)
    | .ok word =>
      match Opcode.ofCode? word with
      | none =>
        let s : Session σ := ⟨{ m with pc := ← addOffset m.pc 2 }, s.host⟩
        return (.error (.invalidOpcode word), s.fail (.invalidOpcode word))
      | some op =>
        let s : Session σ :=
          ⟨{ m with pc := ← addOffset m.pc (← width op) }, Host.log s.host (.fetched op m.pc)⟩
        match ← decodeOperands m.memory m.registers m.pc op.arity [] none with
        | .error f => return (.error f, s.fail f)
        | .ok (operands, none) => return (.ok ⟨m.pc, op, operands⟩, s)
        | .ok (operands, some f) => return (.ok ⟨m.pc, op, operands⟩, s.fail f)
  else
    return (.ok ⟨m.pc, .halt, []⟩, s)

/-- Flushes the host, so that all output is out before the machine waits for input. -/
def awaitInput (s : Session σ) : Except Fault Outcome × Session σ :=
  match Host.flush s.host with
  | (.ok (), host) => (.ok .needInput, ⟨s.machine, host⟩)
  | (.error reason, host) => (.error (.output reason), fail ⟨s.machine, host⟩ (.output reason))

/-- Performs an instruction. A fault is recorded and given. -/
def execute (s : Session σ) (i : Instruction) :
    Except Trap (Except Fault Outcome × Session σ) := do
  match ← s.machine.perform i with
  | (machine, .next) => return (.ok .next, ⟨machine, s.host⟩)
  | (machine, .exit) => return (.ok .exit, ⟨machine, s.host⟩)
  | (machine, .fault f) => return (.error f, fail ⟨machine, s.host⟩ f)
  | (machine, .emit c) =>
    match Host.writeAll s.host (String.utf8EncodeChar c) with
    | (.ok (), host) => return (.ok .next, ⟨machine, host⟩)
    | (.error reason, host) =>
      return (.error (.output reason), fail ⟨machine, host⟩ (.output reason))
  | (machine, .await) => return awaitInput ⟨machine, s.host⟩

/-- Fetches and executes one instruction. The tracer, if there is one, keeps the calls that it
receives. -/
def cycle (s : Session σ) (calls : Option (List Call)) :
    Except Trap (Outcome × Session σ × Option (List Call)) := do
  match ← s.fetch with
  | (.ok i, s) =>
    let calls := calls.map (· ++ [.instruction i s.machine.registers s.machine.stack])
    match ← s.execute i with
    | (.ok outcome, s) => return (outcome, s, calls)
    | (.error _, s) => return (.exit, s, calls)
  | (.error (.invalidOpcode word), s) =>
    -- Where the word lies is computed for a tracer only.
    match calls with
    | none => return (.exit, s, none)
    | some calls =>
      let call := .invalid (← subOffset s.machine.pc 2) word s.machine.registers s.machine.stack
      return (.exit, s, some (calls ++ [call]))
  | (.error _, s) => return (.exit, s, calls)

/-- One step of a run. -/
def step (s : Session σ) (calls : Option (List Call)) :
    Except Trap (Outcome × Session σ × Option (List Call)) := do
  if s.machine.stopped then
    return (.exit, s, calls)
  else
    match s.machine.pending with
    | none => s.cycle calls
    | some dest =>
      match s.machine.takeInput? with
      -- The input instruction is completed in the same step as the next fetch.
      | some (w, machine) =>
        cycle ⟨← { machine with pending := none }.store dest w, s.host⟩ calls
      | none =>
        match s.awaitInput with
        | (.ok outcome, s) => return (outcome, s, calls)
        | (.error _, s) => return (.exit, s, calls)

/-- Runs until the run ends or waits for input, for at most `limit` steps. -/
def exec : (limit : Nat) → Session σ → Option (List Call) →
    Except Trap (Outcome × Session σ × Option (List Call))
  | 0, s, calls => return (.next, s, calls)
  | limit + 1, s, calls => do
    match ← s.step calls with
    | (.next, s, calls) => exec limit s calls
    | result => return result

end Session

/-! ## Histories -/

/-- A session in use, and the instructions that its user has seen. -/
structure Usage (σ : Type) where
  session : Session σ
  seen : List Instruction

namespace Usage

variable {σ : Type}

/-- A session that has never been loaded, and no instruction seen. -/
def start (host : σ) : Usage σ := ⟨⟨.boot (List.replicate Memory.size 0), host⟩, []⟩

variable [Host σ]

/-- Uses an operation of a session. -/
def perform (u : Usage σ) : WordVM.Session.Operation → Except Trap (Usage σ)
  | .load image | .loadFile (.ok image) => return { u with session := u.session.load image }
  | .loadFile (.error _) => return u
  | .send text => return { u with session := u.session.sendInput text }
  | .exec limit => do
    let (_, session, _) ← u.session.exec limit none
    return { u with session }
  | .execTraced limit => do
    let (_, session, calls) ← u.session.exec limit (some [])
    return ⟨session, u.seen ++ (calls.getD []).filterMap Call.instruction?⟩
  | .fetch => do
    match ← u.session.fetch with
    | (.ok i, session) => return ⟨session, u.seen ++ [i]⟩
    | (.error _, session) => return { u with session }
  | .execute k => do
    match u.seen[k]? with
    | some i =>
      let (_, session) ← u.session.execute i
      return { u with session }
    | none => return u

/-- Uses operations one after the other. -/
def replay (operations : List WordVM.Session.Operation) (u : Usage σ) : Except Trap (Usage σ) :=
  operations.foldlM perform u

/-- The bounds that the types of the machine carry, and those of its program counter, hold of the
lists and numbers in use. -/
structure InBounds (u : Usage σ) : Prop where
  memory : u.session.machine.memory.length = 65534
  registers : u.session.machine.registers.length = 8
  pc_even : u.session.machine.pc % 2 = 0
  pc_le : u.session.machine.pc ≤ 131070
  arity : ∀ i ∈ u.seen, i.operands.length = i.opcode.arity
  operand : ∀ i ∈ u.seen, ∀ index value, .register index value ∈ i.operands → index < 8
  pending : ∀ index value, u.session.machine.pending = some (.register index value) → index < 8

end Usage

end WordVM.Checked
