import WordVM.Proofs.BitField
import WordVM.Proofs.Host.Reliable

/-!
# Waiting for input

A machine that waits for input stands behind the input instruction that it will complete
(`Machine.WaitsFor`). The invariant `Machine.StandsBehindInput` says so of every reachable state,
and that the operand of that instruction is good as long as no fault is recorded.

From it follows when a run that answers `needInput` is over already (`needInput_fault_cases`):
exactly if the instruction that waits has a bad operand word. Such a run waits for a character that
it will not read, as `needInput_of_failed_run` shows.
-/

namespace WordVM

/-- The fault that an operand word causes, if it is bad. -/
def Operand.wordFault? (word : Word) : Option Fault :=
  if 32776 ≤ word.toNat then some (.invalidNumber word) else none

/-- The words after an opcode below the ceiling lie within memory. -/
theorem Instruction.read_operandWords (memory : Memory) {pc : Nat} (h : pc < programCeiling)
    {op : Opcode} {k : Nat} (hk : k < op.arity) :
    memory.read (pc + 2 * (k + 1)) = .ok (operandWords memory pc h op)[k] := by
  have h' : pc < 0x8000 := h
  have harity := op.arity_le
  simp only [operandWords, Vector.getElem_ofFn]
  exact dif_pos (by show pc + 2 * (k + 1) + 2 ≤ 0xFFFE; omega)

/-- A bad operand word reads as a literal zero. -/
theorem Instruction.getElem_decode_of_bad {memory : Memory} {pc k : Nat} {word : Word}
    (registers : Registers) (h : pc < programCeiling) (op : Opcode) (hk : k < op.arity)
    (hread : memory.read (pc + 2 * (k + 1)) = .ok word) (hbad : 32776 ≤ word.toNat) :
    (decode memory registers pc h op).operands[k] = .literal 0 := by
  cases (read_operandWords memory h hk).symm.trans hread
  simp only [decode, Vector.getElem_map, Operand.decode_invalid registers hbad]

/-- The fault of an instruction is the one of its first bad operand word. -/
theorem Instruction.operandFault?_eq_findSome? {memory : Memory} {registers : Registers} {pc : Nat}
    (h : pc < programCeiling) (op : Opcode) :
    operandFault? memory registers pc h op =
      (operandWords memory pc h op).toList.findSome? Operand.wordFault? := by
  rw [operandFault?]
  congr 1
  funext raw
  rw [Operand.wordFault?]
  split
  · next hdecode =>
    rw [if_neg]
    intro hbad
    rw [Operand.decode_invalid registers hbad] at hdecode
    cases hdecode
  · next f hdecode =>
    obtain ⟨hbad, rfl⟩ := Operand.decode_eq_error_iff.mp hdecode
    rw [if_pos hbad]

/-- The fault of an instruction with one operand is the one of its operand word. -/
theorem Instruction.operandFault?_of_arity_eq_one {memory : Memory} {registers : Registers}
    {pc : Nat} {op : Opcode} (hop : op.arity = 1) {word : Word} (h : pc < programCeiling)
    (hread : memory.read (pc + 2) = .ok word) :
    operandFault? memory registers pc h op = Operand.wordFault? word := by
  have hsize := second_word_in_bounds h
  -- There is no second word to search.
  have hwords : (operandWords memory pc h op).toList = [word] := by
    rw [memory.word_eq_of_read hread hsize]
    cases op <;> simp [Opcode.arity] at hop <;> rfl
  rw [operandFault?_eq_findSome?, hwords, List.findSome?_singleton]

namespace Machine

/-! ## Where a machine waits -/

/-- The program counter stands behind an input instruction with a given operand word. -/
def WaitsFor (m : Machine) (word : Word) : Prop :=
  ∃ p, m.pc = p + 4 ∧ m.memory.read p = .ok Opcode.input.code ∧ m.memory.read (p + 2) = .ok word

/-- The program counter stands behind an input instruction, and the fault recorded is the one of
its operand word, if that is bad. -/
def WaitsWell (m : Machine) : Prop :=
  ∃ word, m.WaitsFor word ∧ m.fault = Operand.wordFault? word

/-- If an input instruction waits, the program counter stands behind it, and its operand word is
good unless a fault is recorded. -/
def StandsBehindInput (m : Machine) : Prop :=
  ∀ dest, m.pending = some dest →
    ∃ word, m.WaitsFor word ∧ (m.fault = none → Operand.wordFault? word = none)

theorem WaitsWell.standsBehindInput {m : Machine} (h : m.WaitsWell) : m.StandsBehindInput := by
  obtain ⟨word, hword, hfault⟩ := h
  exact fun _ _ => ⟨word, hword, fun hnone => hfault.symm.trans hnone⟩

/-- A machine that waits keeps standing where it does when a fault is recorded. -/
theorem WaitsWell.record {m : Machine} (h : m.WaitsWell) (f : Fault) :
    (m.record f).StandsBehindInput := by
  obtain ⟨word, hword, -⟩ := h
  exact fun _ _ => ⟨word, hword, fun hnone => by simp [Machine.record] at hnone⟩

theorem standsBehindInput_of_pending_eq_none {m : Machine} (h : m.pending = none) :
    m.StandsBehindInput :=
  fun dest hdest => by simp [h] at hdest

@[simp] theorem record_pending (m : Machine) (f : Fault) : (m.record f).pending = m.pending := rfl

@[simp] theorem record_halted (m : Machine) (f : Fault) : (m.record f).halted = m.halted := rfl

theorem takeInput?_pending {m m' : Machine} {w : Word} (h : m.takeInput? = some (w, m')) :
    m'.pending = m.pending := by
  unfold takeInput? at h
  split at h
  · cases h
  · obtain ⟨-, rfl⟩ := by simpa using h
    rfl

/-- Only an input instruction that finds no character makes the machine wait. -/
theorem perform_cases {m m' : Machine} {i : Instruction} {effect : Effect}
    (h : m.perform i = (m', effect)) :
    (effect ≠ .await ∧ m'.pending = m.pending) ∨
      ∃ pc o, i = ⟨pc, .input, o⟩ ∧ m.input = [] ∧ m' = { m with pending := some o[0] } ∧
        effect = .await := by
  obtain ⟨pc, op, o⟩ := i
  cases op
  case input =>
    simp only [perform] at h
    split at h
    · next htake =>
      obtain ⟨rfl, rfl⟩ := by simpa using h
      exact .inl ⟨by simp, by simp [takeInput?_pending htake]⟩
    · next htake =>
      obtain ⟨rfl, rfl⟩ := by simpa using h
      refine .inr ⟨pc, o, rfl, ?_, rfl, rfl⟩
      unfold takeInput? at htake
      split at htake
      · assumption
      · cases htake
  -- No other opcode asks to wait or touches what waits.
  all_goals
    left
    simp only [perform] at h
    grind [store_pending, jump]

/-- A fetch leaves the pending input alone. -/
theorem fetch_pending (m : Machine) : m.fetch.2.pending = m.pending := by
  obtain ⟨-, h⟩ | ⟨_, -, -, -, h⟩ | ⟨_, _, -, h⟩ := m.fetch_cases
  · rw [h]
  · rw [h, record_pending]
  · rw [h]

theorem fetch_halted (m : Machine) : m.fetch.2.halted = m.halted := by
  obtain ⟨-, h⟩ | ⟨_, -, -, -, h⟩ | ⟨_, _, -, h⟩ := m.fetch_cases
  · rw [h]
  · rw [h, record_halted]
  · rw [h]

/-- An instruction with one operand that has been fetched lies below the ceiling, and its operand
word is the only one that can be bad. -/
theorem fetch_of_arity_eq_one {m m' : Machine} {i : Instruction} (h : m.fetch = (.ok i, m'))
    (harity : i.opcode.arity = 1) :
    ∃ (hpc : m.pc < programCeiling) (word : Word), m.memory.read m.pc = .ok i.opcode.code ∧
      m.memory.read (m.pc + 2) = .ok word ∧
      Instruction.decode m.memory m.registers m.pc hpc i.opcode = i ∧
      m' = { m with pc := m.pc + 4, fault := m.fault.or (Operand.wordFault? word) } := by
  obtain ⟨-, hfetch⟩ | ⟨_, -, -, -, hfetch⟩ | ⟨op, hpc, hread, hfetch⟩ := m.fetch_cases <;>
    rw [hfetch, Prod.mk.injEq] at h <;> obtain ⟨hi, rfl⟩ := h <;> cases hi
  · -- The instruction from the ceiling on is a halt.
    cases harity
  · have harity : op.arity = 1 := harity
    have hsize := second_word_in_bounds hpc
    have hword : m.memory.read (m.pc + 2) = .ok (m.memory.word (m.pc + 2) hsize) := dif_pos hsize
    refine ⟨hpc, _, hread, hword, rfl, ?_⟩
    rw [Instruction.operandFault?_of_arity_eq_one harity hpc hword, Opcode.width, harity]

/-- After an input instruction has been fetched, the machine stands where it may have to wait. -/
theorem waitsWell_of_fetch {m m' : Machine} {pc : Nat} {o : Vector Operand 1}
    (h : m.fetch = (.ok ⟨pc, .input, o⟩, m')) (hfault : m.fault = none) : m'.WaitsWell := by
  obtain ⟨-, word, hread, hword, -, rfl⟩ := fetch_of_arity_eq_one h rfl
  exact ⟨word, ⟨m.pc, rfl, hread, hword⟩, by simp [hfault]⟩

/-- A completed input instruction waits no longer. -/
theorem resume?_eq_some {m m' : Machine} (h : m.resume? = some m') :
    m'.pending = none ∧ m'.halted = m.halted ∧ m'.fault = m.fault := by
  rcases m.resume?_cases with ⟨hpending, h'⟩ | ⟨_, -, -, h'⟩ | ⟨_, _, _, -, -, h'⟩ <;> rw [h'] at h
  · cases h
    exact ⟨hpending, rfl, rfl⟩
  · cases h
  · cases h
    simp

end Machine

namespace Session

variable {σ τ : Type} [Host σ]

/-! ## How a session comes to wait -/

/-- Waiting lets the machine be as it is, unless the host refuses a flush. -/
theorem awaitInput_cases (s : Session σ) :
    (∃ host, s.awaitInput = (.ok .needInput, ⟨s.machine, host⟩)) ∨
      ∃ reason host,
        s.awaitInput = (.error (.output reason), ⟨s.machine.record (.output reason), host⟩) := by
  unfold awaitInput
  obtain ⟨reason | _, host⟩ := Host.flush s.host
  · refine .inr ⟨reason, (fail ⟨s.machine, host⟩ (.output reason)).host, ?_⟩
    rw [← fail_machine ⟨s.machine, host⟩]
  · exact .inl ⟨host, rfl⟩

/-- An execution makes a session wait if the instruction makes the machine wait, and leaves the
pending input alone otherwise. -/
theorem execute_cases (s : Session σ) (i : Instruction) :
    ((s.execute i).1 ≠ .ok .needInput ∧ (s.execute i).2.machine.pending = s.machine.pending) ∨
      ∃ pc o, i = ⟨pc, .input, o⟩ ∧
        s.execute i = awaitInput ⟨{ s.machine with pending := some o[0] }, s.host⟩ := by
  rcases hperform : s.machine.perform i with ⟨m', effect⟩
  obtain ⟨hawait, hpending⟩ | ⟨pc, o, rfl, -, rfl, rfl⟩ := Machine.perform_cases hperform
  · left
    simp only [execute, hperform]
    cases effect with
    | next => exact ⟨by simp, hpending⟩
    | exit => exact ⟨by simp, hpending⟩
    | fault f => exact ⟨by simp, by simpa [fail_machine] using hpending⟩
    | emit c =>
      dsimp only
      obtain ⟨reason | _, host⟩ := Host.writeAll s.host (String.utf8EncodeChar c)
      · exact ⟨by simp, by simpa [fail_machine] using hpending⟩
      · exact ⟨by simp, hpending⟩
    | await => exact absurd rfl hawait
  · exact .inr ⟨pc, o, rfl, by simp only [execute, hperform]⟩

/-- A cycle that does not come upon an input instruction without a character does not wait. -/
private theorem runOne_of_execute {s s₁ : Session σ} {i : Instruction}
    (hfetch : s.fetch = (.ok i, s₁)) (hexecute : (s₁.execute i).1 ≠ .ok .needInput) :
    s.runOne.1 ≠ .needInput ∧ s.runOne.2 = (s₁.execute i).2 := by
  unfold runOne
  rw [hfetch]
  dsimp only
  rcases hresult : s₁.execute i with ⟨f | outcome, s'⟩
  · exact ⟨by simp, rfl⟩
  · rw [hresult] at hexecute
    exact ⟨fun h => hexecute (congrArg Except.ok h), rfl⟩

/-- What a cycle that begins without a pending input and without a fault leaves behind. -/
private theorem runOne_waits {s : Session σ} (hpending : s.machine.pending = none)
    (hfault : s.machine.fault = none) :
    s.runOne.2.machine.StandsBehindInput ∧
      (s.runOne.1 = .needInput → s.runOne.2.machine.WaitsWell) := by
  have hfst := s.fetch_fst
  have hmachine := s.fetch_machine
  have hpending₁ : s.fetch.2.machine.pending = none := by
    rw [hmachine, Machine.fetch_pending, hpending]
  rcases hfetch : s.fetch with ⟨f | i, s₁⟩ <;> rw [hfetch] at hfst hmachine hpending₁
  · have hone : s.runOne = (.exit, s₁) := by rw [runOne, hfetch]
    rw [hone]
    exact ⟨Machine.standsBehindInput_of_pending_eq_none hpending₁, by simp⟩
  · obtain ⟨hexecute, hsame⟩ | ⟨pc, o, rfl, hexecute⟩ := s₁.execute_cases i
    · obtain ⟨houtcome, hsession⟩ := runOne_of_execute hfetch hexecute
      rw [hsession]
      exact ⟨Machine.standsBehindInput_of_pending_eq_none (hsame.trans hpending₁),
        fun h => absurd h houtcome⟩
    · -- There is no character for the instruction, and only a refused flush ends the run now.
      have hwell : s₁.machine.WaitsWell :=
        Machine.waitsWell_of_fetch (Prod.ext hfst.symm hmachine.symm) hfault
      replace hwell : Machine.WaitsWell { s₁.machine with pending := some o[0] } := hwell
      rcases awaitInput_cases ⟨{ s₁.machine with pending := some o[0] }, s₁.host⟩ with
        ⟨host, hawait⟩ | ⟨reason, host, hawait⟩
      · have hone : s.runOne = (.needInput, ⟨{ s₁.machine with pending := some o[0] }, host⟩) := by
          simp only [runOne, hfetch, hexecute, hawait]
        rw [hone]
        exact ⟨hwell.standsBehindInput, fun _ => hwell⟩
      · have hone : s.runOne = (.exit, ⟨Machine.record
            { s₁.machine with pending := some o[0] } (.output reason), host⟩) := by
          simp only [runOne, hfetch, hexecute, hawait]
        rw [hone]
        exact ⟨hwell.record _, by simp⟩

/-- What a step leaves behind. -/
theorem advance_waits {s : Session σ} (h : s.machine.StandsBehindInput) :
    s.advance.2.machine.StandsBehindInput ∧
      (s.advance.1 = .needInput → s.advance.2.machine.WaitsWell) := by
  unfold advance
  split
  · exact ⟨h, by simp⟩
  · next hrunning =>
    obtain ⟨-, hfault⟩ := Machine.stopped_eq_false_iff.mp (Bool.not_eq_true _ ▸ hrunning)
    cases hresume : s.machine.resume? with
    | some m =>
      obtain ⟨hpending, -, hsame⟩ := Machine.resume?_eq_some hresume
      exact runOne_waits (s := ⟨m, s.host⟩) hpending (hsame.trans hfault)
    | none =>
      obtain ⟨dest, hdest⟩ : ∃ dest, s.machine.pending = some dest := by
        obtain ⟨-, h'⟩ | ⟨dest, hdest, -⟩ | ⟨_, _, _, -, -, h'⟩ := s.machine.resume?_cases
        · simp [hresume] at h'
        · exact ⟨dest, hdest⟩
        · simp [hresume] at h'
      -- The instruction was parked by an earlier step, and no fault has been recorded since.
      obtain ⟨word, hword, hgood⟩ := h dest hdest
      have hwell : s.machine.WaitsWell := ⟨word, hword, hfault.trans (hgood hfault).symm⟩
      rcases s.awaitInput_cases with ⟨host, hawait⟩ | ⟨reason, host, hawait⟩ <;>
        simp only [hawait]
      · exact ⟨h, fun _ => hwell⟩
      · exact ⟨hwell.record _, by simp⟩

/-- Every reachable machine that waits stands behind the input instruction it waits for. -/
theorem Reachable.standsBehindInput {s : Session σ} (h : s.Reachable) :
    s.machine.StandsBehindInput := by
  induction h with
  | initial host => exact Machine.standsBehindInput_of_pending_eq_none rfl
  | load h image ih =>
    simp only [Session.load]
    split
    · exact Machine.standsBehindInput_of_pending_eq_none rfl
    · exact ih
  | send h text ih => exact ih
  | step h ih => exact (advance_waits ih).1

/-! ## Runs that are over and wait -/

/-- A run that waits stands behind an input instruction. No fault is recorded if the operand word
of that instruction names a value or a register. Otherwise the run is over already: the fault of
that word is recorded. -/
theorem needInput_fault_cases {s : Session σ} (h : s.Reachable) (tracer : Tracer τ) (limit : Nat)
    (t : τ) (hrun : (execTraced tracer limit s t).1 = .needInput) :
    let m := (execTraced tracer limit s t).2.1.machine
    ∃ p word, m.pc = p + 4 ∧ m.memory.read p = .ok Opcode.input.code ∧
      m.memory.read (p + 2) = .ok word ∧
      (word.toNat < 32776 ∧ m.fault = none ∨
        32776 ≤ word.toNat ∧ m.fault = some (.invalidNumber word)) := by
  intro m
  have hexec := execTraced_eq_exec tracer limit s t
  rw [hrun] at hexec
  -- The invariant holds before the last step, and that step waits well.
  obtain ⟨s₁, hreachable, hstep⟩ := h.exists_last_step hexec.symm (by simp)
  have hwell := (advance_waits hreachable.standsBehindInput).2 (by rw [hstep])
  rw [hstep] at hwell
  obtain ⟨word, ⟨p, hpc, hopcode, hword⟩, hfault⟩ := hwell
  refine ⟨p, word, hpc, hopcode, hword, ?_⟩
  -- The fault recorded, if any, is the one of this very word.
  by_cases hbad : 32776 ≤ word.toNat
  · exact .inr ⟨hbad, hfault.trans (if_pos hbad)⟩
  · exact .inl ⟨Nat.not_le.mp hbad, hfault.trans (if_neg hbad)⟩

/-- The first instruction reads input into the operand word 40000. -/
theorem needInput_fault_cases_badOperand :
    let s := (fresh.load [20, 0, 64, 156]).2
    let m := (execTraced .silent 9 s ()).2.1.machine
    s.Reachable ∧ (execTraced .silent 9 s ()).1 = .needInput ∧
      ∃ p word, m.pc = p + 4 ∧ m.memory.read p = .ok Opcode.input.code ∧
        m.memory.read (p + 2) = .ok word ∧
        (word.toNat < 32776 ∧ m.fault = none ∨
          32776 ≤ word.toNat ∧ m.fault = some (.invalidNumber word)) := by
  intro s m
  have hreachable : s.Reachable := (Reachable.initial _).load _
  have hrun : (execTraced .silent 9 s ()).1 = .needInput := by decide +kernel
  exact ⟨hreachable, hrun, needInput_fault_cases hreachable .silent 9 () hrun⟩

/-- A run can wait for input with a fault recorded, and sending it some only makes it end. -/
theorem needInput_of_failed_run :
    let s := (fresh.load [20, 0, 64, 156]).2
    (s.exec 9).1 = .needInput ∧ (s.exec 9).2.machine.fault = some (.invalidNumber 40000) ∧
      (((s.exec 9).2.sendInput "line\n").exec 9).1 = .exit := by
  decide +kernel

end Session

end WordVM
