import WordVM.Proofs.Execution
import WordVM.Proofs.Host.Reliable

/-!
# The upper half of memory

Instructions begin below the program ceiling. The last one that does may have operand words beyond
it, but it ends below `dataFloor`, and from there on memory is data only: it makes a difference to
a machine only through the instructions that read memory into a register.

So a session can be given another memory with the same words below `dataFloor`, and does the same
as before, as long as it reads no data (`Session.fetch_withMemory`, `Session.execute_withMemory`,
`Session.step_withMemory`). Instructions write the same words to both memories
(`Instruction.afterWrite`), so differences remain or vanish, and never come up
(`Instruction.ne_of_afterWrite_ne`). `replayTraced_upperHalf` says this of two histories.
-/

namespace WordVM

/-- The word address from which on memory is data only. No instruction reaches that far. -/
abbrev dataFloor : Nat := 16387

/-- An opcode word and up to three operand words lie below the data floor. -/
theorem below_dataFloor {pc : Nat} (hpc : pc < programCeiling) {k : Nat} (hk : k ≤ 3) :
    pc + 2 * k < 2 * dataFloor := by
  have hpc' : pc < 0x8000 := hpc
  show pc + 2 * k < 2 * 16387
  omega

/-! ## Memories with the same program side -/

namespace Memory

/-- The words below the data floor are the same. -/
def SameBelow (memory memory' : Memory) : Prop :=
  ∀ address < dataFloor, memory'.read (2 * address) = memory.read (2 * address)

variable {memory memory' : Memory}

theorem SameBelow.refl (memory : Memory) : memory.SameBelow memory := fun _ _ => rfl

theorem SameBelow.word_eq (h : memory.SameBelow memory') {i : Nat} (heven : i % 2 = 0)
    (hi : i < 2 * dataFloor) (hsize : i + 2 ≤ size) :
    memory'.word i hsize = memory.word i hsize := by
  have hread := h (i / 2) (by omega)
  rw [show 2 * (i / 2) = i by omega, read, read, dif_pos hsize, dif_pos hsize] at hread
  exact Except.ok.inj hread

theorem SameBelow.read_eq (h : memory.SameBelow memory') {address : Nat}
    (haddress : address < dataFloor ∨ 32767 ≤ address) :
    memory'.read (2 * address) = memory.read (2 * address) := by
  rcases haddress with hlt | hle
  · exact h address hlt
  · have hbeyond : size < 2 * address + 2 := by
      show 0xFFFE < 2 * address + 2
      omega
    rw [read_eq_error_iff.mpr ⟨hbeyond, rfl⟩, read_eq_error_iff.mpr ⟨hbeyond, rfl⟩]

/-- Whether a write succeeds depends on where the word lies, and not on the memory. -/
theorem write_cases (memory memory' : Memory) (i : Nat) (w : Word) :
    (∃ written written', memory.write i w = .ok written ∧ memory'.write i w = .ok written') ∨
      size < i + 2 ∧ ∃ f, memory.write i w = .error f ∧ memory'.write i w = .error f := by
  by_cases h : i + 2 ≤ size
  · exact .inl ⟨_, _, dif_pos h, dif_pos h⟩
  · exact .inr ⟨Nat.not_le.mp h, _, dif_neg h, dif_neg h⟩

end Memory

namespace Instruction

variable {memory memory' : Memory}

/-- The operand words of an instruction lie below the data floor. -/
theorem operandWords_eq (h : memory.SameBelow memory') {pc : Nat} (heven : pc % 2 = 0)
    (hpc : pc < programCeiling) (op : Opcode) :
    operandWords memory' pc hpc op = operandWords memory pc hpc op := by
  simp only [operandWords]
  congr 1
  funext k
  have hk : k.val + 1 ≤ 3 := Nat.le_trans k.isLt op.arity_le
  exact h.word_eq (by omega) (below_dataFloor hpc hk) _

/-! ## Loads and writes -/

/-- The word address that the instruction reads into a register, if it does so. -/
def loadAddress? (i : Instruction) : Option Nat :=
  if i.opcode = .readMem then i.destination?.map fun _ => (i.valueAt 1).toNat else none

/-- The word address that the instruction writes to, if it does so. -/
def writeAddress? (i : Instruction) : Option Nat :=
  if i.opcode = .writeMem then some (i.valueAt 0).toNat else none

/-- The instruction reads no data into a register. It may try and read from beyond memory. -/
def LoadsNoData (i : Instruction) : Prop :=
  ∀ address ∈ i.loadAddress?, address < dataFloor ∨ 32767 ≤ address

instance : DecidablePred LoadsNoData := fun i => Option.decidableForallMem i.loadAddress?

/-- What an instruction reads that reads no data is the same in both memories. -/
theorem LoadsNoData.read_eq {i : Instruction} (hload : i.LoadsNoData)
    (h : memory.SameBelow memory') :
    ∀ address ∈ i.loadAddress?, memory'.read (2 * address) = memory.read (2 * address) :=
  fun address haddress => h.read_eq (hload address haddress)

/-- What the instruction makes of a memory. -/
def afterWrite (i : Instruction) (memory : Memory) : Memory :=
  if i.opcode = .writeMem then
    match memory.write (i.valueAt 0).byteOffset (i.valueAt 1) with
    | .ok memory => memory
    | .error _ => memory
  else memory

/-- Words that differ after an instruction have differed before, and the instruction has not written
them. -/
theorem ne_of_afterWrite_ne (i : Instruction) {address : Nat}
    (h : (i.afterWrite memory').read (2 * address) ≠ (i.afterWrite memory).read (2 * address)) :
    memory'.read (2 * address) ≠ memory.read (2 * address) ∧ i.writeAddress? ≠ some address := by
  by_cases hop : i.opcode = .writeMem
  · simp only [afterWrite, if_pos hop] at h
    simp only [writeAddress?, if_pos hop, ne_eq, Option.some.injEq]
    obtain ⟨_, _, hwrite, hwrite'⟩ | ⟨hbeyond, f, hwrite, hwrite'⟩ :=
      Memory.write_cases memory memory' (i.valueAt 0).byteOffset (i.valueAt 1) <;>
      simp only [hwrite, hwrite'] at h
    · by_cases haddress : (i.valueAt 0).toNat = address
      · -- Both memories hold the word that has been written.
        subst haddress
        exact absurd ((Memory.read_write hwrite').trans (Memory.read_write hwrite).symm) h
      · have hdisjoint : 2 * address + 2 ≤ (i.valueAt 0).byteOffset ∨
            (i.valueAt 0).byteOffset + 2 ≤ 2 * address := by
          rw [Word.byteOffset]
          omega
        rw [Memory.read_write_of_disjoint hwrite hdisjoint,
          Memory.read_write_of_disjoint hwrite' hdisjoint] at h
        exact ⟨h, haddress⟩
    · -- The write has failed on both, and where it has failed there are no words to differ.
      refine ⟨h, ?_⟩
      rintro rfl
      have hnone (memory : Memory) : memory.read (i.valueAt 0).byteOffset =
          .error (.addressOutOfRange (i.valueAt 0).byteOffset) :=
        Memory.read_eq_error_iff.mpr ⟨hbeyond, rfl⟩
      exact h ((hnone memory').trans (hnone memory).symm)
  · rw [afterWrite, afterWrite, if_neg hop, if_neg hop] at h
    rw [writeAddress?, if_neg hop]
    exact ⟨h, by simp⟩

end Instruction

/-! ## Machines with another memory -/

namespace Machine

variable {m m' : Machine} {memory : Memory}

/-- The machine with another memory. -/
def withMemory (m : Machine) (memory : Memory) : Machine := { m with memory }

@[simp] theorem withMemory_memory (m : Machine) (memory : Memory) :
    (m.withMemory memory).memory = memory := rfl

@[simp] theorem store_withMemory (m : Machine) (dest : Operand) (w : Word) :
    (m.withMemory memory).store dest w = (m.store dest w).withMemory memory := by
  cases dest <;> rfl

@[simp] theorem store_memory (m : Machine) (dest : Operand) (w : Word) :
    (m.store dest w).memory = m.memory := by
  cases dest <;> rfl

theorem takeInput?_withMemory (m : Machine) : (m.withMemory memory).takeInput? =
    m.takeInput?.map fun (w, m) => (w, m.withMemory memory) := by
  cases hinput : m.input <;> simp [takeInput?, withMemory, hinput]

theorem resume?_withMemory (m : Machine) :
    (m.withMemory memory).resume? = m.resume?.map (withMemory · memory) := by
  unfold resume?
  rw [show (m.withMemory memory).pending = m.pending from rfl]
  cases m.pending with
  | none => rfl
  | some dest =>
    dsimp only
    rw [takeInput?_withMemory]
    cases m.takeInput? with
    | none => rfl
    | some taken => exact congrArg some (store_withMemory { taken.2 with pending := none } ..)

theorem resume?_memory (h : m.resume? = some m') : m'.memory = m.memory := by
  obtain ⟨-, h'⟩ | ⟨_, -, -, h'⟩ | ⟨_, _, _, -, -, h'⟩ := m.resume?_cases <;> rw [h'] at h <;>
    cases h
  · rfl
  · rw [store_memory]

theorem fetch_memory (m : Machine) : m.fetch.2.memory = m.memory := by
  obtain ⟨-, h⟩ | ⟨_, -, -, -, h⟩ | ⟨_, _, -, h⟩ := m.fetch_cases <;> rw [h]
  rfl

/-- What lies at the program counter lies below the data floor. -/
theorem peek_withMemory (heven : m.pc % 2 = 0) (h : m.memory.SameBelow memory) :
    (m.withMemory memory).peek = m.peek := by
  obtain ⟨memory', registers, stack, pc, halted, fault, input, pending⟩ := m
  rw [withMemory]
  dsimp only at heven h ⊢
  by_cases hpc : pc < programCeiling
  · simp only [peek, dif_pos hpc,
      h.word_eq heven (below_dataFloor hpc (Nat.zero_le 3)) (word_in_bounds hpc),
      Instruction.decode, Instruction.operandFault?, Instruction.operandWords_eq h heven hpc]
  · simp only [peek, dif_neg hpc]

/-- An instruction has the same effect on both memories if it reads the same from them, or reads
nothing. -/
theorem perform_withMemory {i : Instruction} (hload : ∀ address ∈ i.loadAddress?,
      memory.read (2 * address) = m.memory.read (2 * address)) :
    (m.withMemory memory).perform i =
      ((m.perform i).1.withMemory (i.afterWrite memory), (m.perform i).2) := by
  obtain ⟨pc, op, o⟩ := i
  have hvalue (k : Nat) (hk : k < op.arity) : Instruction.valueAt ⟨pc, op, o⟩ k = o[k].value :=
    Instruction.valueAt_eq hk
  cases op
  case readMem =>
    have hafter : Instruction.afterWrite ⟨pc, .readMem, o⟩ memory = memory := rfl
    have hdest : Instruction.destination? ⟨pc, .readMem, o⟩ = o[0].register? :=
      Instruction.destination?_eq (by decide)
    -- Without a destination nothing is read, so the address matters only beside one.
    have hsame (r : Fin registerCount) (hr : o[0].register? = some r) :
        memory.read o[1].byteOffset = m.memory.read o[1].byteOffset :=
      hload _ (by simp [Instruction.loadAddress?, hdest, hr, hvalue 1 (by decide)])
    simp only [perform, withMemory_memory, hafter]
    cases hr : o[0].register? with
    | none => simp only [Option.isSome_none, Bool.false_eq_true, if_false]
    | some r =>
      simp only [Option.isSome_some, if_true, hsame r hr]
      cases m.memory.read o[1].byteOffset with
      | error f => rfl
      | ok w => simp only [store_withMemory]
  case writeMem =>
    simp only [perform, withMemory_memory, Instruction.afterWrite, if_true, Operand.byteOffset,
      hvalue 0 (by decide), hvalue 1 (by decide)]
    obtain ⟨_, _, hwrite, hwrite'⟩ | ⟨-, f, hwrite, hwrite'⟩ :=
      Memory.write_cases m.memory memory o[0].value.byteOffset o[1].value <;>
      simp only [hwrite, hwrite']
    rfl
  case input =>
    simp only [perform, takeInput?_withMemory]
    cases m.takeInput? with
    | none => rfl
    | some taken =>
      simp only [Option.map_some, store_withMemory]
      rfl
  all_goals grind [perform, store_withMemory, Instruction.afterWrite, withMemory, jump]

/-- A write within memory replaces the memory, and does nothing else. -/
theorem perform_of_write {i : Instruction} (hop : i.opcode = .writeMem)
    (hwrite : m.memory.write (i.valueAt 0).byteOffset (i.valueAt 1) = .ok memory) :
    m.perform i = (m.withMemory memory, .next) := by
  obtain ⟨pc, op, o⟩ := i
  obtain rfl : op = .writeMem := hop
  rw [Instruction.valueAt_eq (by decide), Instruction.valueAt_eq (by decide)] at hwrite
  simp only [perform, Operand.byteOffset, hwrite]
  rfl

end Machine

namespace Session

variable {σ τ : Type}

/-! ## Sessions with another memory -/

/-- The session with another memory in its machine. -/
def withMemory (s : Session σ) (memory : Memory) : Session σ :=
  ⟨s.machine.withMemory memory, s.host⟩

variable {s s' : Session σ} {memory : Memory}

theorem withMemory_self (s : Session σ) : s.withMemory s.machine.memory = s := rfl

/-- Two sessions that differ in nothing but the data that their memories hold. -/
structure SameButData (s s' : Session σ) : Prop where
  host : s'.host = s.host
  registers : s'.machine.registers = s.machine.registers
  stack : s'.machine.stack = s.machine.stack
  pc : s'.machine.pc = s.machine.pc
  halted : s'.machine.halted = s.machine.halted
  fault : s'.machine.fault = s.machine.fault
  input : s'.machine.input = s.machine.input
  pending : s'.machine.pending = s.machine.pending
  memory : s.machine.memory.SameBelow s'.machine.memory

theorem SameButData.eq_withMemory (h : s.SameButData s') :
    s' = s.withMemory s'.machine.memory := by
  obtain ⟨hhost, hregisters, hstack, hpc, hhalted, hfault, hinput, hpending, -⟩ := h
  obtain ⟨⟨_, _, _, _, _, _, _, _⟩, _⟩ := s'
  dsimp only at *
  subst hhost hregisters hstack hpc hhalted hfault hinput hpending
  rfl

theorem sameButData_withMemory (h : s.machine.memory.SameBelow memory) :
    s.SameButData (s.withMemory memory) :=
  ⟨rfl, rfl, rfl, rfl, rfl, rfl, rfl, rfl, h⟩

variable [Host σ]

theorem fail_withMemory (s : Session σ) (f : Fault) :
    (s.withMemory memory).fail f = (s.fail f).withMemory memory := by
  unfold fail
  rw [show (s.withMemory memory).machine.fault = s.machine.fault from rfl]
  cases s.machine.fault <;> rfl

theorem awaitInput_withMemory (s : Session σ) :
    (s.withMemory memory).awaitInput = (s.awaitInput.1, s.awaitInput.2.withMemory memory) :=
  awaitInput_comm (g := (·.withMemory memory)) .id fail_withMemory s

/-- A fetch gives the same instruction with both memories. -/
theorem fetch_withMemory (heven : s.machine.pc % 2 = 0) (h : s.machine.memory.SameBelow memory) :
    (s.withMemory memory).fetch = (s.fetch.1, s.fetch.2.withMemory memory) := by
  have hpeek := Machine.peek_withMemory heven h
  obtain ⟨m, host⟩ := s
  simp only [fetch, withMemory, hpeek]
  cases m.peek with
  | pastCeiling => rfl
  | invalid word => exact Prod.ext rfl (fail_withMemory ⟨{ m with pc := m.pc + 2 }, host⟩ _)
  | instruction i fault? =>
    cases fault? with
    | none => rfl
    | some f => exact Prod.ext rfl (fail_withMemory ⟨{ m with pc := m.pc + i.opcode.width }, _⟩ f)

/-- An instruction does the same with both memories, and writes to both, unless it reads different
words from them. -/
theorem execute_withMemory {i : Instruction} (hload : ∀ address ∈ i.loadAddress?,
      memory.read (2 * address) = s.machine.memory.read (2 * address)) :
    (s.withMemory memory).execute i =
      ((s.execute i).1, (s.execute i).2.withMemory (i.afterWrite memory)) :=
  execute_comm (g := (·.withMemory (i.afterWrite memory))) .id fail_withMemory
    (Machine.perform_withMemory hload)

/-- What an execution makes of memory, the instruction makes of it. -/
theorem execute_memory (s : Session σ) (i : Instruction) :
    (s.execute i).2.machine.memory = i.afterWrite s.machine.memory := by
  -- The memory of the machine itself is a memory from which the same is read.
  have hexecute : (s.withMemory s.machine.memory).execute i = _ :=
    execute_withMemory fun _ _ => rfl
  rw [withMemory_self] at hexecute
  exact congrArg (fun result => result.2.machine.memory) hexecute

/-- What some executions make of a memory. -/
def afterWrites (executions : List Execution) (memory : Memory) : Memory :=
  executions.foldl (fun memory e => e.instruction.afterWrite memory) memory

theorem afterWrites_append (first second : List Execution) (memory : Memory) :
    afterWrites (first ++ second) memory = afterWrites second (afterWrites first memory) :=
  List.foldl_append

theorem ne_of_afterWrites_ne {executions : List Execution} {memory memory' : Memory} {address : Nat}
    (h : (afterWrites executions memory').read (2 * address) ≠
      (afterWrites executions memory).read (2 * address)) :
    memory'.read (2 * address) ≠ memory.read (2 * address) ∧
      ∀ e ∈ executions, e.instruction.writeAddress? ≠ some address := by
  induction executions generalizing memory memory' with
  | nil => exact ⟨h, fun _ he => absurd he List.not_mem_nil⟩
  | cons e rest ih =>
    obtain ⟨hafter, hrest⟩ := ih h
    obtain ⟨hbefore, hfirst⟩ := e.instruction.ne_of_afterWrite_ne hafter
    exact ⟨hbefore, List.forall_mem_cons.mpr ⟨hfirst, hrest⟩⟩

theorem sameBelow_afterWrites {memory memory' : Memory} (h : memory.SameBelow memory')
    (executions : List Execution) :
    (afterWrites executions memory).SameBelow (afterWrites executions memory') := by
  intro address haddress
  by_contra hne
  exact (ne_of_afterWrites_ne hne).1 (h address haddress)

/-- What a fetch finds is performed on the memory of the machine, and on the other memory too. -/
def afterCycle (s : Session σ) (memory : Memory) : Memory :=
  match s.fetch.1 with
  | .ok i => i.afterWrite memory
  | .error _ => memory

theorem cycle_withMemory (tracer : Tracer τ) (heven : s.machine.pc % 2 = 0)
    (h : s.machine.memory.SameBelow memory) (hload : ∀ i, s.fetch.1 = .ok i → i.LoadsNoData)
    (t : τ) :
    cycle tracer (s.withMemory memory) t =
      ((s.cycle tracer t).1, (s.cycle tracer t).2.1.withMemory (s.afterCycle memory),
        (s.cycle tracer t).2.2) := by
  have hmemory : s.fetch.2.machine.memory = s.machine.memory := by
    rw [fetch_machine, Machine.fetch_memory]
  unfold cycle afterCycle
  rw [fetch_withMemory heven h]
  rcases hfetch : s.fetch with ⟨f | i, s₁⟩ <;> rw [hfetch] at hmemory hload
  · cases f <;> rfl
  · simp only [executeSeen, execute_withMemory ((hload i rfl).read_eq (hmemory ▸ h))]
    rcases s₁.execute i with ⟨_ | _, s₂⟩ <;> rfl

/-- A step, in terms of what it completes and fetches. -/
theorem step_eq_cycle (tracer : Tracer τ) (s : Session σ) (t : τ) :
    s.step tracer t =
      if s.machine.stopped then (.exit, s, t)
      else
        match s.machine.resume? with
        | some m => cycle tracer ⟨m, s.host⟩ t
        | none =>
          match s.awaitInput with
          | (.ok outcome, s) => (outcome, s, t)
          | (.error _, s) => (.exit, s, t) := by
  unfold step Machine.resume?
  cases s.machine.pending with
  | none => rfl
  | some dest => cases s.machine.takeInput? <;> rfl

theorem afterCycle_eq {m : Machine} (hrunning : s.machine.stopped = false)
    (hresume : s.machine.resume? = some m) :
    afterCycle ⟨m, s.host⟩ memory = afterWrites s.machine.execution?.toList memory := by
  simp only [afterCycle, fetch_fst, Machine.execution?, hrunning, hresume, Option.bind_some,
    Bool.false_eq_true, if_false]
  rcases m.fetch with ⟨_ | i, m'⟩ <;> rfl

/-- A step that reads no data does the same with both memories, and writes to both. -/
theorem step_withMemory (tracer : Tracer τ) (hplaced : s.machine.Placed)
    (h : s.machine.memory.SameBelow memory)
    (hload : ∀ e, s.machine.execution? = some e → e.instruction.LoadsNoData) (t : τ) :
    (s.withMemory memory).step tracer t =
      ((s.step tracer t).1,
        (s.step tracer t).2.1.withMemory (afterWrites s.machine.execution?.toList memory),
        (s.step tracer t).2.2) := by
  -- The condition on the end of the run and the completion of input look at no memory.
  rw [step_eq_cycle, step_eq_cycle, awaitInput_withMemory,
    show (s.withMemory memory).machine = s.machine.withMemory memory from rfl,
    show (s.machine.withMemory memory).stopped = s.machine.stopped from rfl,
    Machine.resume?_withMemory]
  cases hrunning : s.machine.stopped with
  | true => simp [Machine.execution?, hrunning, afterWrites]
  | false =>
    cases hresume : s.machine.resume? with
    | none =>
      have hnone : s.machine.execution? = none := by simp [Machine.execution?, hresume]
      rw [hnone]
      rcases s.awaitInput with ⟨_ | _, s₁⟩ <;> rfl
    | some m =>
      rw [← afterCycle_eq hrunning hresume]
      refine cycle_withMemory (s := ⟨m, s.host⟩) tracer (hplaced.resume hresume).even
        (Machine.resume?_memory hresume ▸ h) (fun i hi => ?_) t
      -- What the cycle fetches is what the step performs.
      rw [fetch_fst] at hi
      exact hload ⟨m.fetch.2, i⟩
        (Machine.execution?_eq_some_iff.mpr ⟨hrunning, m, hresume, Prod.ext hi rfl⟩)

/-- What a step makes of memory, its execution makes of it. -/
theorem step_memory (tracer : Tracer τ) (hplaced : s.machine.Placed)
    (hload : ∀ e, s.machine.execution? = some e → e.instruction.LoadsNoData) (t : τ) :
    (s.step tracer t).2.1.machine.memory =
      afterWrites s.machine.execution?.toList s.machine.memory := by
  -- The memory of the machine itself is a memory with the same words below the floor.
  have hstep := step_withMemory tracer hplaced (.refl s.machine.memory) hload t
  rw [withMemory_self] at hstep
  exact congrArg (fun result => result.2.1.machine.memory) hstep

/-! ## Histories under a tracer -/

/-- The outcomes of the steps among some actions under a tracer, the session after all of them, and
what has become of the tracer. -/
def replayTraced (tracer : Tracer τ) : List Action → Session σ → τ → List Outcome × Session σ × τ
  | [], s, t => ([], s, t)
  | .send text :: rest, s, t => replayTraced tracer rest (s.sendInput text) t
  | .step :: rest, s, t =>
    let (outcome, s, t) := s.step tracer t
    let (outcomes, s, t) := replayTraced tracer rest s t
    (outcome :: outcomes, s, t)

/-- A tracer only watches, in histories as well. -/
theorem replayTraced_eq_replay (tracer : Tracer τ) (actions : List Action) (s : Session σ) (t : τ) :
    ((replayTraced tracer actions s t).1, (replayTraced tracer actions s t).2.1) =
      s.replay actions := by
  induction actions generalizing s t with
  | nil => rfl
  | cons action rest ih =>
    cases action with
    | send text => exact ih (s.sendInput text) t
    | step =>
      rw [replay_step, ← step_eq_advance tracer s t,
        ← ih (s.step tracer t).2.1 (s.step tracer t).2.2]
      rfl

/-- A history that reads no data is the same with both memories, and writes to both. -/
theorem replayTraced_withMemory (tracer : Tracer τ) {actions : List Action}
    (hplaced : s.machine.Placed) (h : s.machine.memory.SameBelow memory)
    (hload : ∀ e ∈ s.executions actions, e.instruction.LoadsNoData) (t : τ) :
    replayTraced tracer actions (s.withMemory memory) t =
      ((replayTraced tracer actions s t).1,
        (replayTraced tracer actions s t).2.1.withMemory
          (afterWrites (s.executions actions) memory),
        (replayTraced tracer actions s t).2.2) := by
  induction actions generalizing s memory t with
  | nil => rfl
  | cons action rest ih =>
    cases action with
    | send text => exact ih (s := s.sendInput text) (hplaced.of_pc_eq rfl) h hload t
    | step =>
      simp only [executions_step, List.mem_append, Option.mem_toList] at hload
      have hfirst := fun e he => hload e (.inl he)
      have hsession : (s.step tracer t).2.1 = s.advance.2 :=
        congrArg Prod.snd (step_eq_advance tracer s t)
      have hmemory := step_memory tracer hplaced hfirst t
      rw [hsession] at hmemory
      -- After the step the two memories are again the same below the floor.
      have hrest := ih (placed_invariant.advance hplaced)
        (hmemory ▸ sameBelow_afterWrites h s.machine.execution?.toList)
        (fun e he => hload e (.inr he)) (s.step tracer t).2.2
      simp only [replayTraced, step_withMemory tracer hplaced h hfirst, hsession, hrest,
        executions_step, afterWrites_append]

/-- What a history makes of memory, its executions make of it. -/
theorem replayTraced_memory (tracer : Tracer τ) {actions : List Action}
    (hplaced : s.machine.Placed)
    (hload : ∀ e ∈ s.executions actions, e.instruction.LoadsNoData) (t : τ) :
    (replayTraced tracer actions s t).2.1.machine.memory =
      afterWrites (s.executions actions) s.machine.memory := by
  have hreplay := replayTraced_withMemory tracer hplaced (.refl s.machine.memory) hload t
  rw [withMemory_self] at hreplay
  exact congrArg (fun result => result.2.1.machine.memory) hreplay

/-- A write to data within memory makes no difference but in data. -/
theorem execute_dataWrite (s : Session σ) {i : Instruction} (hop : i.opcode = .writeMem)
    (hfloor : dataFloor ≤ (i.valueAt 0).toNat) (hmemory : (i.valueAt 0).toNat < 32767) :
    s.SameButData (s.execute i).2 ∧
      (s.execute i).2.machine.memory.read (i.valueAt 0).byteOffset = .ok (i.valueAt 1) := by
  have hsize : (i.valueAt 0).byteOffset + 2 ≤ Memory.size := by
    show 2 * (i.valueAt 0).toNat + 2 ≤ 0xFFFE
    omega
  obtain ⟨memory, hwrite⟩ : ∃ memory,
      s.machine.memory.write (i.valueAt 0).byteOffset (i.valueAt 1) = .ok memory :=
    ⟨_, by rw [Memory.write, dif_pos hsize]⟩
  have hexecute : s.execute i = (.ok .next, s.withMemory memory) := by
    simp only [execute, Machine.perform_of_write hop hwrite]
    rfl
  rw [hexecute]
  refine ⟨sameButData_withMemory fun address haddress => ?_, Memory.read_write hwrite⟩
  have hdisjoint : 2 * address + 2 ≤ (i.valueAt 0).byteOffset := by
    rw [Word.byteOffset]
    omega
  exact Memory.read_write_of_disjoint hwrite (.inl hdisjoint)

/-- The upper half of memory is data only. Take a session that has been used in any way and another
one that differs from it in data. As long as the first one reads no data, both do the same: steps
end in the same way, a tracer sees the same, and sessions remain the same but for data. Data that
differs then has differed from the start, and nothing has been written to it. From the ceiling on,
with any memory, halts are fetched, and they do not move the program counter. -/
theorem replayTraced_upperHalf (host : σ) (operations : List Operation) (actions : List Action)
    (tracer : Tracer τ) (t : τ) :
    let s := ((Usage.start host).replay operations).session
    (∀ s' : Session σ, s.SameButData s' →
      (∀ e ∈ s.executions actions, e.instruction.LoadsNoData) →
        let result := replayTraced tracer actions s t
        let result' := replayTraced tracer actions s' t
        result'.1 = result.1 ∧ result'.2.2 = result.2.2 ∧ result.2.1.SameButData result'.2.1 ∧
          ∀ address : Nat,
            result'.2.1.machine.memory.read (2 * address) ≠
              result.2.1.machine.memory.read (2 * address) →
            s'.machine.memory.read (2 * address) ≠ s.machine.memory.read (2 * address) ∧
              ∀ e ∈ s.executions actions, e.instruction.writeAddress? ≠ some address) ∧
      (programCeiling ≤ s.machine.pc → ∀ memory,
        (s.withMemory memory).fetch = (.ok (.halt s.machine.pc), s.withMemory memory) ∧
          ((s.withMemory memory).execute (.halt s.machine.pc)).2.machine.pc = s.machine.pc) := by
  intro s
  have hplaced : s.machine.Placed := Usage.replay_placed (.boot _) operations
  constructor
  · intro s' hsame hload
    have hmemory := replayTraced_memory tracer hplaced hload t
    have hreplay := replayTraced_withMemory tracer hplaced hsame.memory hload t
    rw [← hsame.eq_withMemory] at hreplay
    dsimp only
    rw [hreplay]
    refine ⟨rfl, rfl, sameButData_withMemory ?_, fun address hne => ?_⟩
    · rw [hmemory]
      exact sameBelow_afterWrites hsame.memory _
    · rw [hmemory] at hne
      exact ne_of_afterWrites_ne hne
  · intro hpc memory
    have hpeek : (s.machine.withMemory memory).peek = .pastCeiling := dif_neg (Nat.not_lt.mpr hpc)
    constructor
    · simp only [fetch, withMemory, hpeek]
      rfl
    · rfl

/-- A program that writes to a word of data twice and prints a character. The second write is left
out in one session, and done in the other. -/
theorem replayTraced_upperHalf_twoWrites :
    let image : List UInt8 := [16, 0, 32, 78, 5, 0, 16, 0, 32, 78, 6, 0, 19, 0, 33, 0]
    let operations : List Operation := [.load image, .fetch, .fetch, .execute 0]
    let u := (Usage.start fresh.host).replay operations
    let s := u.session
    let s' := (u.perform (.execute 1)).session
    s.machine.memory.read 40000 = .ok 5 ∧ s'.machine.memory.read 40000 = .ok 6 ∧
      s.SameButData s' ∧ (∀ e ∈ s.executions [.step], e.instruction.LoadsNoData) ∧
      (replayTraced .recorder [.step] s' []).1 = [.next] ∧
      (replayTraced .recorder [.step] s' []).2.2 = (replayTraced .recorder [.step] s []).2.2 ∧
      (replayTraced .recorder [.step] s []).2.1.SameButData
        (replayTraced .recorder [.step] s' []).2.1 := by
  intro image operations u s s'
  let first : Instruction := ⟨0, .writeMem, #v[.literal 20000, .literal 5]⟩
  let second : Instruction := ⟨6, .writeMem, #v[.literal 20000, .literal 6]⟩
  let fetched := (Usage.start fresh.host).replay [.load image, .fetch, .fetch]
  have hseen : fetched.seen = [first, second] := by decide +kernel
  have hfirst : u = ⟨(fetched.session.execute first).2, [first, second]⟩ := by
    show fetched.perform (.execute 0) = _
    simp only [Usage.perform, hseen]
    rfl
  have hsecond : s' = (s.execute second).2 := by
    show (u.perform (.execute 1)).session = (u.session.execute second).2
    rw [hfirst]
    rfl
  obtain ⟨-, hread⟩ := execute_dataWrite fetched.session (i := first) rfl (by decide) (by decide)
  obtain ⟨hsame, hread'⟩ := execute_dataWrite s (i := second) rfl (by decide) (by decide)
  rw [← hsecond] at hsame hread'
  have hread : s.machine.memory.read 40000 = .ok 5 := by
    rw [show s = u.session from rfl, hfirst]
    exact hread
  have hload : ∀ e ∈ s.executions [.step], e.instruction.LoadsNoData := by decide +kernel
  have hnext : (replayTraced .recorder [.step] s []).1 = [.next] := by decide +kernel
  have hs : s = ((Usage.start fresh.host).replay operations).session := rfl
  have hupper := (replayTraced_upperHalf fresh.host operations [.step] .recorder []).1
  rw [← hs] at hupper
  clear_value s s'
  obtain ⟨houtcomes, htracer, hafter, -⟩ := hupper s' hsame hload
  exact ⟨hread, hread', hsame, hload, houtcomes.trans hnext, htracer, hafter⟩

end Session

end WordVM
