import WordVM.Session

/-!
# Steps and runs

What a fetch, a step and a run do, with everything left out that only the host or a tracer sees.

`Machine.fetch` and `Machine.resume?` are the parts of a step that concern the machine alone;
`Session.fetch_fst` and `Session.fetch_machine` tie the first to what a session does on any host.
`Session.advance` is a step without a tracer, and `Session.step_eq_advance` says that no tracer
makes a difference to it. A run repeats `advance` (`Session.exec_succ`), and a limit that a run
does not reach has no influence on it (`Session.exec_add`).
-/

namespace WordVM

theorem Memory.word_eq_of_read {memory : Memory} {i : Nat} {w : Word} (h : memory.read i = .ok w)
    (hi : i + 2 ≤ Memory.size) : w = memory.word i hi := by
  simpa [Memory.read, hi] using h.symm

/-- Below the ceiling there are words. -/
theorem word_in_bounds {i : Nat} (h : i < programCeiling) : i + 2 ≤ Memory.size := by
  have : i < 0x8000 := h
  show i + 2 ≤ 0xFFFE
  omega

theorem second_word_in_bounds {i : Nat} (h : i < programCeiling) : i + 2 + 2 ≤ Memory.size := by
  have : i < 0x8000 := h
  show i + 2 + 2 ≤ 0xFFFE
  omega

namespace Machine

/-- Takes note of a fault. Only the first one is kept. -/
def record (m : Machine) (f : Fault) : Machine := { m with fault := m.fault.or (some f) }

/-- Reads the instruction at the program counter and moves past it. -/
def fetch (m : Machine) : Except Fault Instruction × Machine :=
  match m.peek with
  | .pastCeiling => (.ok (.halt m.pc), m)
  | .invalid word =>
    (.error (.invalidOpcode word), { m with pc := m.pc + 2 }.record (.invalidOpcode word))
  | .instruction i none => (.ok i, { m with pc := m.pc + i.opcode.width })
  | .instruction i (some f) => (.ok i, { m with pc := m.pc + i.opcode.width }.record f)

/-- Completes the input instruction that waits, if one does. There is no result as long as its
character is missing. -/
def resume? (m : Machine) : Option Machine :=
  match m.pending with
  | none => some m
  | some dest => m.takeInput?.map fun (w, m) => { m with pending := none }.store dest w

/-- From the ceiling on there are halts. -/
theorem fetch_of_le {m : Machine} (h : programCeiling ≤ m.pc) :
    m.fetch = (.ok (.halt m.pc), m) := by
  simp only [fetch, peek, dif_neg (Nat.not_lt.mpr h)]

/-- A word that names no opcode is passed over and recorded. -/
theorem fetch_of_ofCode?_eq_none {m : Machine} {word : Word} (h : m.pc < programCeiling)
    (hread : m.memory.read m.pc = .ok word) (hop : Opcode.ofCode? word = none) :
    m.fetch = (.error (.invalidOpcode word),
      { m with pc := m.pc + 2 }.record (.invalidOpcode word)) := by
  obtain rfl := m.memory.word_eq_of_read hread (word_in_bounds h)
  simp only [fetch, peek, dif_pos h, hop]

/-- A word that names an opcode is passed over with its operand words, and the first bad one of
these is recorded. -/
theorem fetch_of_ofCode?_eq_some {m : Machine} {word : Word} {op : Opcode}
    (h : m.pc < programCeiling) (hread : m.memory.read m.pc = .ok word)
    (hop : Opcode.ofCode? word = some op) :
    m.fetch = (.ok (.decode m.memory m.registers m.pc h op),
      { m with
        pc := m.pc + op.width
        fault := m.fault.or (Instruction.operandFault? m.memory m.registers m.pc h op) }) := by
  obtain rfl := m.memory.word_eq_of_read hread (word_in_bounds h)
  have hpeek : m.peek = .instruction (.decode m.memory m.registers m.pc h op)
      (Instruction.operandFault? m.memory m.registers m.pc h op) := by
    simp only [peek, dif_pos h, hop]
  simp only [fetch, hpeek]
  cases Instruction.operandFault? m.memory m.registers m.pc h op with
  | none => simp [Instruction.decode]
  | some f => rfl

/-- What lies at the program counter decides between three kinds of fetches. -/
theorem fetch_cases (m : Machine) :
    (programCeiling ≤ m.pc ∧ m.fetch = (.ok (.halt m.pc), m)) ∨
      (∃ word, m.pc < programCeiling ∧ m.memory.read m.pc = .ok word ∧
        Opcode.ofCode? word = none ∧
        m.fetch = (.error (.invalidOpcode word),
          { m with pc := m.pc + 2 }.record (.invalidOpcode word))) ∨
      ∃ (op : Opcode) (h : m.pc < programCeiling), m.memory.read m.pc = .ok op.code ∧
        m.fetch = (.ok (.decode m.memory m.registers m.pc h op),
          { m with
            pc := m.pc + op.width
            fault := m.fault.or (Instruction.operandFault? m.memory m.registers m.pc h op) }) := by
  by_cases h : m.pc < programCeiling
  -- There is a word to read, so all that is left is what it names.
  · right
    have hread : m.memory.read m.pc = .ok (m.memory.word m.pc (word_in_bounds h)) :=
      dif_pos (word_in_bounds h)
    cases hop : Opcode.ofCode? (m.memory.word m.pc (word_in_bounds h)) with
    | none => exact .inl ⟨_, h, hread, hop, fetch_of_ofCode?_eq_none h hread hop⟩
    | some op =>
      refine .inr ⟨op, h, ?_, fetch_of_ofCode?_eq_some h hread hop⟩
      rw [hread, Opcode.code_of_ofCode? hop]
  · exact .inl ⟨Nat.not_lt.mp h, fetch_of_le (Nat.not_lt.mp h)⟩

theorem stopped_eq_false_iff {m : Machine} :
    m.stopped = false ↔ m.halted = false ∧ m.fault = none := by
  simp [stopped]

@[simp] theorem store_halted (m : Machine) (dest : Operand) (w : Word) :
    (m.store dest w).halted = m.halted := by
  cases dest <;> rfl

@[simp] theorem store_fault (m : Machine) (dest : Operand) (w : Word) :
    (m.store dest w).fault = m.fault := by
  cases dest <;> rfl

@[simp] theorem store_input (m : Machine) (dest : Operand) (w : Word) :
    (m.store dest w).input = m.input := by
  cases dest <;> rfl

@[simp] theorem store_pending (m : Machine) (dest : Operand) (w : Word) :
    (m.store dest w).pending = m.pending := by
  cases dest <;> rfl

/-- The input instruction that waits is completed with the first character of the input. -/
theorem resume?_cases (m : Machine) :
    (m.pending = none ∧ m.resume? = some m) ∨
      (∃ dest, m.pending = some dest ∧ m.input = [] ∧ m.resume? = none) ∨
      ∃ dest c rest, m.pending = some dest ∧ m.input = c :: rest ∧
        m.resume? = some ({ m with input := rest, pending := none }.store dest (Input.code c)) := by
  unfold resume? takeInput?
  cases hpending : m.pending with
  | none => exact .inl ⟨rfl, rfl⟩
  | some dest =>
    cases hinput : m.input with
    | nil => exact .inr (.inl ⟨dest, rfl, rfl, rfl⟩)
    | cons c rest => exact .inr (.inr ⟨dest, c, rest, rfl, rfl, rfl⟩)

end Machine

namespace Session

variable {σ τ : Type} [Host σ]

/-! ## Fetching -/

theorem fail_machine (s : Session σ) (f : Fault) : (s.fail f).machine = s.machine.record f := by
  obtain ⟨m, host⟩ := s
  obtain ⟨_, _, _, _, _, fault, _, _⟩ := m
  cases fault <;> rfl

/-- What a fetch gives depends on the machine alone. -/
theorem fetch_fst (s : Session σ) : s.fetch.1 = s.machine.fetch.1 := by
  obtain ⟨m, host⟩ := s
  simp only [fetch, Machine.fetch]
  cases m.peek with
  | pastCeiling => rfl
  | invalid word => rfl
  | instruction i fault? => cases fault? <;> rfl

/-- The machine that a fetch leaves behind depends on the machine alone. -/
theorem fetch_machine (s : Session σ) : s.fetch.2.machine = s.machine.fetch.2 := by
  obtain ⟨m, host⟩ := s
  simp only [fetch, Machine.fetch]
  cases m.peek with
  | pastCeiling => rfl
  | invalid word => exact fail_machine ..
  | instruction i fault? =>
    cases fault? with
    | none => rfl
    | some f => exact fail_machine ..

/-- What a session fetches, its machine fetches. -/
theorem machine_fetch_eq {s s' : Session σ} {result : Except Fault Instruction}
    (h : s.fetch = (result, s')) : s.machine.fetch = (result, s'.machine) := by
  have hfst := s.fetch_fst
  have hmachine := s.fetch_machine
  rw [h] at hfst hmachine
  exact Prod.ext hfst.symm hmachine.symm

/-- From the ceiling on, a fetch gives a halt and changes nothing. -/
theorem fetch_of_le {s : Session σ} (h : programCeiling ≤ s.machine.pc) :
    s.fetch = (.ok (.halt s.machine.pc), s) := by
  have hpeek : s.machine.peek = .pastCeiling := dif_neg (Nat.not_lt.mpr h)
  rw [fetch, hpeek]

/-- A fault is only reported to the host. -/
theorem fail_host {P : σ → Prop} (hlog : ∀ host event, P host → P (Host.log host event))
    {s : Session σ} (h : P s.host) (f : Fault) : P (s.fail f).host := by
  unfold fail
  split
  · exact h
  · exact hlog _ _ h

/-- A fetch only reports to the host. -/
theorem fetch_host {P : σ → Prop} (hlog : ∀ host event, P host → P (Host.log host event))
    {s : Session σ} (h : P s.host) : P s.fetch.2.host := by
  obtain ⟨m, host⟩ := s
  simp only [fetch]
  cases m.peek with
  | pastCeiling => exact h
  | invalid word => exact fail_host (s := ⟨{ m with pc := m.pc + 2 }, host⟩) hlog h _
  | instruction i fault? =>
    have hreported := hlog host (.fetched i.opcode m.pc) h
    cases fault? with
    | none => exact hreported
    | some f =>
      exact fail_host (s := ⟨{ m with pc := m.pc + i.opcode.width }, _⟩) hlog hreported f

/-! ## Steps without a tracer -/

/-- One fetch and one execution. -/
def runOne (s : Session σ) : Outcome × Session σ :=
  match s.fetch with
  | (.error _, s) => (.exit, s)
  | (.ok i, s) =>
    match s.execute i with
    | (.ok outcome, s) => (outcome, s)
    | (.error _, s) => (.exit, s)

/-- One step of a run. -/
def advance (s : Session σ) : Outcome × Session σ :=
  if s.machine.stopped then
    (.exit, s)
  else
    match s.machine.resume? with
    | some machine => runOne ⟨machine, s.host⟩
    | none =>
      match s.awaitInput with
      | (.ok outcome, s) => (outcome, s)
      | (.error _, s) => (.exit, s)

/-- A cycle that gets an instruction ends as its execution does, and a fault is an end as well. -/
theorem runOne_of_fetch {s s₁ : Session σ} {i : Instruction} (h : s.fetch = (.ok i, s₁)) :
    s.runOne = ((s₁.execute i).1.toOption.getD .exit, (s₁.execute i).2) := by
  rw [runOne]
  simp only [h]
  rcases s₁.execute i with ⟨_ | _, _⟩ <;> rfl

private theorem cycle_eq_runOne (tracer : Tracer τ) (s : Session σ) (t : τ) :
    ((s.cycle tracer t).1, (s.cycle tracer t).2.1) = s.runOne := by
  unfold cycle runOne executeSeen
  obtain ⟨_ | i, s⟩ := s.fetch
  · split <;> simp_all
  · rcases hexec : s.execute i with ⟨_ | _, s⟩ <;> simp [hexec]

/-- A tracer only watches: a step does the same under any of them. -/
theorem step_eq_advance (tracer : Tracer τ) (s : Session σ) (t : τ) :
    ((s.step tracer t).1, (s.step tracer t).2.1) = s.advance := by
  unfold step advance Machine.resume?
  split
  · rfl
  · cases s.machine.pending with
    | none => exact cycle_eq_runOne ..
    | some dest =>
      cases s.machine.takeInput? with
      | some taken => exact cycle_eq_runOne ..
      | none => rcases s.awaitInput with ⟨_ | _, s⟩ <;> rfl

/-! ## Runs -/

theorem exec_zero (s : Session σ) : s.exec 0 = (.next, s) := rfl

/-- A run takes a step, and goes on if another one can follow. -/
theorem exec_succ (limit : Nat) (s : Session σ) :
    s.exec (limit + 1) =
      match s.advance with
      | (.next, s) => s.exec limit
      | (outcome, s) => (outcome, s) := by
  -- A run is defined under a tracer, and the silent one is as good as any.
  rw [← step_eq_advance .silent s ()]
  conv => lhs; rw [exec, execTraced]
  rcases s.step .silent () with ⟨_ | _ | _, s, t⟩ <;> rfl

/-- A run does the same under any tracer. -/
theorem execTraced_eq_exec (tracer : Tracer τ) (limit : Nat) (s : Session σ) (t : τ) :
    ((execTraced tracer limit s t).1, (execTraced tracer limit s t).2.1) = s.exec limit := by
  induction limit generalizing s t with
  | zero => rfl
  | succ limit ih =>
    rw [exec_succ, ← step_eq_advance tracer s t]
    unfold execTraced
    obtain ⟨_ | _ | _, s, t⟩ := s.step tracer t
    · exact ih s t
    · rfl
    · rfl

/-- A run that has ended within a limit ends in the same way within every higher one. -/
theorem exec_add {limit : Nat} {s : Session σ} (h : (s.exec limit).1 ≠ .next) (k : Nat) :
    s.exec (limit + k) = s.exec limit := by
  induction limit generalizing s with
  | zero => exact absurd rfl h
  | succ limit ih =>
    -- Both runs take the same first step, and only one that goes on has a rest to compare.
    rw [show limit + 1 + k = limit + k + 1 by omega, exec_succ, exec_succ]
    rw [exec_succ] at h
    rcases hstep : s.advance with ⟨_ | _ | _, s'⟩
    · simp only [hstep] at h
      exact ih h
    · rfl
    · rfl

/-! ## Histories -/

/-- An image that fits is loaded. -/
theorem load_of_le (s : Session σ) {image : List UInt8} (fits : image.length ≤ Memory.size) :
    s.load image =
      (.ok (), ⟨.boot (.ofImage image fits), Host.log s.host (.imageLoaded image.length)⟩) :=
  dif_pos fits

/-- What a user does to a session whose program has been loaded. -/
inductive Action
  /-- Sends text to the machine. -/
  | send (text : String)
  /-- Lets the machine take a step of a run. -/
  | step

/-- The outcomes of the steps among some actions, and the session after all of them. -/
def replay : List Action → Session σ → List Outcome × Session σ
  | [], s => ([], s)
  | .send text :: rest, s => replay rest (s.sendInput text)
  | .step :: rest, s =>
    let (outcome, s, _) := s.step .silent ()
    let (outcomes, s) := replay rest s
    (outcome :: outcomes, s)

/-- The characters that some actions add to the input of the machine. -/
def arrivals : List Action → List Char
  | [] => []
  | .send text :: rest => Input.normalize text.toList ++ arrivals rest
  | .step :: rest => arrivals rest

/-- The sessions that loads, inputs and the steps of runs lead to, from a machine that has never
been loaded. -/
inductive Reachable : Session σ → Prop
  | initial (host : σ) : Reachable ⟨.initial, host⟩
  | load {s : Session σ} (h : Reachable s) (image : List UInt8) : Reachable (s.load image).2
  | send {s : Session σ} (h : Reachable s) (text : String) : Reachable (s.sendInput text)
  | step {s : Session σ} (h : Reachable s) : Reachable s.advance.2

/-- Whole runs lead to nothing else. -/
theorem Reachable.exec {s : Session σ} (h : Reachable s) (limit : Nat) :
    Reachable (s.exec limit).2 := by
  induction limit generalizing s with
  | zero => exact h
  | succ limit ih =>
    have hnext := h.step
    rw [exec_succ]
    rcases hstep : s.advance with ⟨_ | _ | _, s₁⟩ <;> rw [hstep] at hnext
    · exact ih hnext
    · exact hnext
    · exact hnext

/-- A run that waits or has ended took its last step from a state that it had reached. -/
theorem Reachable.exists_last_step {s s' : Session σ} {limit : Nat} {outcome : Outcome}
    (h : Reachable s) (hexec : s.exec limit = (outcome, s')) (hover : outcome ≠ .next) :
    ∃ s₁, Reachable s₁ ∧ s₁.advance = (outcome, s') := by
  induction limit generalizing s with
  | zero => exact absurd (congrArg Prod.fst hexec).symm hover
  | succ limit ih =>
    rw [exec_succ] at hexec
    -- A step that is not the last one leads to another reachable session.
    rcases hstep : s.advance with ⟨_ | _ | _, s₁⟩ <;> rw [hstep] at hexec
    · have hnext := h.step
      rw [hstep] at hnext
      exact ih hnext hexec
    · exact ⟨s, h, hstep.trans hexec⟩
    · exact ⟨s, h, hstep.trans hexec⟩

@[simp] theorem replay_nil (s : Session σ) : s.replay [] = ([], s) := rfl

@[simp] theorem replay_send (text : String) (rest : List Action) (s : Session σ) :
    s.replay (.send text :: rest) = (s.sendInput text).replay rest := rfl

@[simp] theorem replay_step (rest : List Action) (s : Session σ) :
    s.replay (.step :: rest) =
      (s.advance.1 :: (s.advance.2.replay rest).1, (s.advance.2.replay rest).2) := by
  rw [← step_eq_advance .silent s ()]
  rfl

/-- A history is its first part, and then the rest from where that has led. -/
theorem replay_append (past rest : List Action) (s : Session σ) :
    s.replay (past ++ rest) =
      ((s.replay past).1 ++ ((s.replay past).2.replay rest).1,
        ((s.replay past).2.replay rest).2) := by
  induction past generalizing s with
  | nil => rfl
  | cons action past ih =>
    cases action with
    | send text => exact ih (s.sendInput text)
    | step => simp only [List.cons_append, replay_step, ih]

end Session

end WordVM
