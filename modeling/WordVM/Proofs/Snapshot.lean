import WordVM.Proofs.Execution
import WordVM.Proofs.Host.Journal

/-!
# Operands are snapshots

An operand carries the content that its register had when it was decoded, and an instruction looks
at its operands only. So it makes no difference to an execution what the registers hold by then:
with other contents (`Machine.withRegisters`) the instruction has the same effect, and writes the
same word to the same register, or writes to none (`Machine.Writes`, `Machine.exists_writes`). The
register is the one that the first operand names.

`execute_snapshot` says this of two sessions that differ in the contents of their registers.
-/

namespace WordVM

/-- The registers after a word has been written to one of them, or to none. -/
def Registers.after (registers : Registers) (write? : Option (Fin registerCount × Word)) :
    Registers :=
  write?.elim registers fun write => registers.set write.1 write.2

namespace Machine

/-- The machine with other contents of its registers. -/
def withRegisters (m : Machine) (registers : Registers) : Machine := { m with registers }

/-- This is what the instruction writes to the registers, whatever they hold: a word to the register
that its first operand names, or nothing. Its other effects do not depend on the registers. -/
structure Writes (m : Machine) (i : Instruction) (write? : Option (Fin registerCount × Word)) :
    Prop where
  destination : ∀ write ∈ write?, i.destination? = some write.1
  perform : ∀ registers, (m.withRegisters registers).perform i =
    ((m.perform i).1.withRegisters (registers.after write?), (m.perform i).2)

variable {m : Machine} {i : Instruction}

theorem withRegisters_self (m : Machine) : m.withRegisters m.registers = m := rfl

theorem store_withRegisters (m : Machine) (registers : Registers) (dest : Operand) (w : Word) :
    (m.withRegisters registers).store dest w =
      m.withRegisters (registers.after (dest.register?.map (·, w))) := by
  cases dest <;> rfl

/-- An instruction that does the same with all contents of the registers writes nothing. -/
theorem Writes.of_same (h : ∀ registers, (m.withRegisters registers).perform i =
    ((m.perform i).1.withRegisters registers, (m.perform i).2)) : m.Writes i none :=
  ⟨nofun, h⟩

/-- An instruction that ends with a store writes what is stored. -/
theorem Writes.of_store (m₁ : Machine) {dest : Operand} {w : Word} {effect : Effect}
    (hdest : i.destination? = dest.register?)
    (h : ∀ registers, (m.withRegisters registers).perform i =
      ((m₁.withRegisters registers).store dest w, effect)) :
    m.Writes i (dest.register?.map (·, w)) := by
  constructor
  · intro write hwrite
    obtain ⟨r, hr, rfl⟩ := Option.map_eq_some_iff.mp hwrite
    rw [hdest, hr]
  · intro registers
    -- The machine itself is the case in which the registers hold what they do.
    have hself := h m.registers
    rw [withRegisters_self, store_withRegisters] at hself
    rw [h, hself, store_withRegisters]
    rfl

variable {pc : Nat}

private theorem exists_writes_pop (m : Machine) (o : Vector Operand Opcode.pop.arity) :
    ∃ write?, m.Writes ⟨pc, .pop, o⟩ write? := by
  cases hr : o[0].register? with
  | none => exact ⟨none, .of_same fun registers => by simp only [perform, hr]⟩
  | some r =>
    cases hpop : m.stack.pop? with
    | none =>
      refine ⟨none, .of_same fun registers => ?_⟩
      have hpop' : (m.withRegisters registers).stack.pop? = none := hpop
      simp only [perform, hr, hpop, hpop']
    | some top =>
      obtain ⟨w, stack⟩ := top
      refine ⟨some (r, w), ⟨?_, fun registers => ?_⟩⟩
      · intro write hwrite
        obtain rfl := Option.mem_some_iff.mp hwrite
        rw [Instruction.destination?_eq (by decide), hr]
      · have hpop' : (m.withRegisters registers).stack.pop? = some (w, stack) := hpop
        simp only [perform, hr, hpop, hpop']
        rfl

private theorem exists_writes_mod (m : Machine) (o : Vector Operand Opcode.mod.arity) :
    ∃ write?, m.Writes ⟨pc, .mod, o⟩ write? := by
  by_cases hsome : o[0].register?.isSome
  · by_cases hzero : o[2].value = 0
    · exact ⟨none, .of_same fun registers => by simp only [perform, hsome, hzero, if_true]⟩
    · have hperform (registers : Registers) : (m.withRegisters registers).perform ⟨pc, .mod, o⟩ =
          ((m.withRegisters registers).store o[0] (o[1].value % o[2].value), .next) := by
        simp only [perform, hsome, hzero, if_true, if_false]
      exact ⟨_, .of_store m (Instruction.destination?_eq (by decide)) hperform⟩
  · refine ⟨none, .of_same fun registers => ?_⟩
    simp only [perform, hsome]
    rfl

private theorem exists_writes_readMem (m : Machine) (o : Vector Operand Opcode.readMem.arity) :
    ∃ write?, m.Writes ⟨pc, .readMem, o⟩ write? := by
  by_cases hsome : o[0].register?.isSome
  -- What is read does not depend on the registers, since the address is the operand's own.
  · cases hread : m.memory.read o[1].byteOffset with
    | error f =>
      refine ⟨none, .of_same fun registers => ?_⟩
      have hread' : (m.withRegisters registers).memory.read o[1].byteOffset = .error f := hread
      simp only [perform, hsome, hread, hread', if_true]
    | ok w =>
      have hperform (registers : Registers) :
          (m.withRegisters registers).perform ⟨pc, .readMem, o⟩ =
            ((m.withRegisters registers).store o[0] w, .next) := by
        have hread' : (m.withRegisters registers).memory.read o[1].byteOffset = .ok w := hread
        simp only [perform, hsome, hread', if_true]
      exact ⟨_, .of_store m (Instruction.destination?_eq (by decide)) hperform⟩
  · refine ⟨none, .of_same fun registers => ?_⟩
    simp only [perform, hsome]
    rfl

private theorem exists_writes_input (m : Machine) (o : Vector Operand Opcode.input.arity) :
    ∃ write?, m.Writes ⟨pc, .input, o⟩ write? := by
  cases hinput : m.input with
  | nil =>
    refine ⟨none, .of_same fun registers => ?_⟩
    have hinput' : (m.withRegisters registers).input = [] := hinput
    simp only [perform, takeInput?, hinput, hinput']
    rfl
  | cons c rest =>
    have hperform (registers : Registers) : (m.withRegisters registers).perform ⟨pc, .input, o⟩ =
        (({ m with input := rest }.withRegisters registers).store o[0] (Input.code c), .next) := by
      have hinput' : (m.withRegisters registers).input = c :: rest := hinput
      simp only [perform, takeInput?, hinput']
      rfl
    exact ⟨_, .of_store _ (Instruction.destination?_eq (by decide)) hperform⟩

/-- Every instruction writes to one register at most, and to the same one with the same word,
whatever the registers hold. -/
theorem exists_writes (m : Machine) (i : Instruction) : ∃ write?, m.Writes i write? := by
  obtain ⟨pc, op, o⟩ := i
  cases op
  case set | eq | gt | add | mult | and | or | not =>
    exact ⟨_, .of_store m (Instruction.destination?_eq (by decide)) fun _ => rfl⟩
  case halt | push | jump | call | out | noop => exact ⟨none, .of_same fun _ => rfl⟩
  case pop => exact m.exists_writes_pop o
  case mod => exact m.exists_writes_mod o
  case readMem => exact m.exists_writes_readMem o
  case input => exact m.exists_writes_input o
  -- The others branch, but not on a register.
  case jumpIf | jumpUnless =>
    refine ⟨none, .of_same fun registers => ?_⟩
    by_cases hzero : o[0].value = 0 <;> simp only [perform, hzero] <;> rfl
  case writeMem =>
    refine ⟨none, .of_same fun registers => ?_⟩
    simp only [perform, withRegisters]
    cases m.memory.write o[0].byteOffset o[1].value <;> rfl
  case ret =>
    refine ⟨none, .of_same fun registers => ?_⟩
    simp only [perform, withRegisters]
    cases m.stack.pop? <;> rfl

end Machine

namespace Session

variable {σ : Type}

/-! ## Sessions with other contents of the registers -/

/-- The session with other contents of the registers in its machine. -/
def withRegisters (s : Session σ) (registers : Registers) : Session σ :=
  ⟨s.machine.withRegisters registers, s.host⟩

/-- Two sessions that differ in nothing but the contents of the registers. -/
structure SameButRegisters (s s' : Session σ) : Prop where
  host : s'.host = s.host
  memory : s'.machine.memory = s.machine.memory
  stack : s'.machine.stack = s.machine.stack
  pc : s'.machine.pc = s.machine.pc
  halted : s'.machine.halted = s.machine.halted
  fault : s'.machine.fault = s.machine.fault
  input : s'.machine.input = s.machine.input
  pending : s'.machine.pending = s.machine.pending

variable {s s' : Session σ}

theorem SameButRegisters.eq_withRegisters (h : s.SameButRegisters s') :
    s' = s.withRegisters s'.machine.registers := by
  obtain ⟨hhost, hmemory, hstack, hpc, hhalted, hfault, hinput, hpending⟩ := h
  obtain ⟨⟨_, _, _, _, _, _, _, _⟩, _⟩ := s'
  dsimp only at *
  subst hhost hmemory hstack hpc hhalted hfault hinput hpending
  rfl

theorem sameButRegisters_withRegisters (s : Session σ) (registers : Registers) :
    s.SameButRegisters (s.withRegisters registers) :=
  ⟨rfl, rfl, rfl, rfl, rfl, rfl, rfl, rfl⟩

variable [Host σ] {i : Instruction} {write? : Option (Fin registerCount × Word)}

theorem fail_withRegisters (registers : Registers) (s : Session σ) (f : Fault) :
    (s.withRegisters registers).fail f = (s.fail f).withRegisters registers := by
  unfold fail
  rw [show (s.withRegisters registers).machine.fault = s.machine.fault from rfl]
  cases s.machine.fault <;> rfl

/-- An execution does the same with other contents of the registers, and writes the same to them. -/
theorem execute_withRegisters (h : s.machine.Writes i write?) (registers : Registers) :
    (s.withRegisters registers).execute i =
      ((s.execute i).1, (s.execute i).2.withRegisters (registers.after write?)) :=
  execute_comm (g := (·.withRegisters (registers.after write?))) .id
    (fail_withRegisters (registers.after write?)) (h.perform registers)

theorem execute_registers (h : s.machine.Writes i write?) :
    (s.execute i).2.machine.registers = s.machine.registers.after write? := by
  have hexecute := execute_withRegisters h s.machine.registers
  exact congrArg (·.2.machine.registers) hexecute

/-- Operands are snapshots. Take two sessions that differ in nothing but the contents of the
registers, and an instruction that may have been fetched at any time. Executing it has the same
result in both, and leaves two sessions that differ in nothing but the contents of the registers.
There is at most one register that the execution writes, the one that the first operand names; it
is written in both, with the same word, and the other registers keep what each of them held. -/
theorem execute_snapshot (h : s.SameButRegisters s') (i : Instruction) :
    (s'.execute i).1 = (s.execute i).1 ∧ (s.execute i).2.SameButRegisters (s'.execute i).2 ∧
      ∃ write? : Option (Fin registerCount × Word),
        (∀ write ∈ write?, i.destination? = some write.1) ∧
        (s.execute i).2.machine.registers = s.machine.registers.after write? ∧
        (s'.execute i).2.machine.registers = s'.machine.registers.after write? := by
  obtain ⟨write?, hwrites⟩ := s.machine.exists_writes i
  have hexecute := execute_withRegisters hwrites s'.machine.registers
  rw [← h.eq_withRegisters] at hexecute
  rw [hexecute]
  refine ⟨rfl, sameButRegisters_withRegisters .., write?, hwrites.destination, ?_, rfl⟩
  exact execute_registers hwrites

/-- An addition that was fetched when two registers held 3 and 4. It leaves 7 in the register of its
first operand, also where the registers hold 100 and 200 by now. -/
theorem execute_snapshot_stale :
    let s := (fresh.load [9, 0, 0, 128, 0, 128, 1, 128]).2
    let fetched := (s.withRegisters #v[3, 4, 0, 0, 0, 0, 0, 0]).fetch.1
    let s' := s.withRegisters #v[100, 200, 0, 0, 0, 0, 0, 0]
    let i : Instruction := ⟨0, .add, #v[.register 0 3, .register 0 3, .register 1 4]⟩
    fetched = .ok i ∧ (s.execute i).2.SameButRegisters (s'.execute i).2 ∧
      (s.execute i).2.machine.registers = #v[7, 0, 0, 0, 0, 0, 0, 0] ∧
      (s'.execute i).2.machine.registers = #v[7, 200, 0, 0, 0, 0, 0, 0] := by
  intro s fetched s' i
  have hfetched : fetched = .ok i := by decide +kernel
  have hleft : (s.execute i).2.machine.registers = #v[7, 0, 0, 0, 0, 0, 0, 0] := by decide +kernel
  obtain ⟨-, hsame, write?, hdest, hs, hs'⟩ :=
    execute_snapshot (s.sameButRegisters_withRegisters #v[100, 200, 0, 0, 0, 0, 0, 0]) i
  rw [hleft] at hs
  cases write? with
  | none =>
    have hzero : (#v[7, 0, 0, 0, 0, 0, 0, 0] : Registers) ≠ s.machine.registers := by decide +kernel
    exact absurd hs hzero
  | some write =>
    obtain ⟨r, w⟩ := write
    obtain rfl : 0 = r := Option.some.inj (hdest (r, w) rfl)
    obtain rfl : 7 = w := congrArg (·.get 0) hs
    exact ⟨hfetched, hsame, hleft, hs'⟩

end Session

end WordVM
