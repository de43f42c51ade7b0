import WordVM.Proofs.Execution

/-!
# The flow of input

Input instructions take characters in two places: right when they are performed, or at the beginning
of a later step, if they had to wait. `Session.completions` lists what they take in the course of a
history, in either place. `Machine.Accounts` keeps the books: what was there and what arrived is
what was taken and what is left, and instructions that were performed have been completed or wait.
Every part of a step balances, and so does every history (`Session.replay_accounts`).

`Session.input_conserved` is what a program can count on since it was loaded.
-/

namespace WordVM

/-- The word that a program reads for a character. -/
theorem Input.toNat_code (c : Char) :
    (code c).toNat =
      if c = '\n' ∨ c = '\r' then 10 else if c = ' ' then 32 else c.toNat % 32768 := by
  unfold code
  split
  · rfl
  · rfl
  · rfl
  · next hlf hcr hspace =>
    rw [if_neg (not_or.mpr ⟨hlf, hcr⟩), if_neg hspace, Word.toNat_wrap]
    rfl

/-- The completion of an input instruction. -/
structure Completion where
  /-- Where the character goes. -/
  destination : Operand
  /-- The machine that takes the character. -/
  before : Machine
  /-- The machine that has taken it. -/
  after : Machine

namespace Completion

/-- The character that is taken: the first one of the input. -/
def taken? (c : Completion) : Option Char := c.before.input.head?

/-- The first character of the input is taken, and its code goes to the destination. -/
def ReadsOne (c : Completion) : Prop :=
  ∃ char rest, c.before.input = char :: rest ∧
    c.after = { c.before with input := rest, pending := none }.store c.destination (Input.code char)

variable {c : Completion}

/-- The character is gone from the input, and its code is in the register that the destination
names, if it names one. No other register has changed. -/
theorem ReadsOne.registers_eq (h : c.ReadsOne) :
    ∃ char, c.before.input = char :: c.after.input ∧ ∀ r, c.after.registers.get r =
      if c.destination.register? = some r then Input.code char else c.before.registers.get r := by
  obtain ⟨char, rest, hinput, hafter⟩ := h
  refine ⟨char, by rw [hinput, hafter, Machine.store_input], fun r => ?_⟩
  rw [hafter, Machine.get_store]

end Completion

namespace Execution

/-- The destination of the instruction, if it is an input instruction. -/
def inputDestination? (e : Execution) : Option Operand :=
  if e.instruction.opcode = .input then e.instruction.operands[0]? else none

/-- The completion that the execution brings about: that of its own instruction, if this is an input
instruction that need not wait. -/
def completion? (e : Execution) : Option Completion :=
  match e.inputDestination?, e.result with
  | some destination, (after, .next) => some ⟨destination, e.machine, after⟩
  | _, _ => none

/-- An execution has to do with the input in one of three ways: not at all, or an input instruction
finds no character and waits, or it takes the first one. -/
theorem input_cases (e : Execution) :
    (e.inputDestination? = none ∧ e.completion? = none ∧ e.result.1.input = e.machine.input ∧
        e.result.1.pending = e.machine.pending) ∨
      (∃ dest, e.inputDestination? = some dest ∧ e.completion? = none ∧ e.machine.input = [] ∧
        e.result.1 = { e.machine with pending := some dest }) ∨
      ∃ dest c rest, e.inputDestination? = some dest ∧
        e.completion? = some ⟨dest, e.machine, e.result.1⟩ ∧ e.machine.input = c :: rest ∧
        e.result.1 = { e.machine with input := rest }.store dest (Input.code c) := by
  obtain ⟨m, pc, op, o⟩ := e
  unfold completion? result
  cases op
  case input =>
    have hdest : inputDestination? ⟨m, ⟨pc, .input, o⟩⟩ = some o[0] :=
      Vector.getElem?_eq_getElem Nat.one_pos
    simp only [hdest, Machine.perform, Machine.takeInput?]
    cases hinput : m.input with
    | nil => exact .inr (.inl ⟨_, rfl, rfl, rfl, rfl⟩)
    | cons c rest => exact .inr (.inr ⟨_, c, rest, rfl, rfl, rfl, rfl⟩)
  -- No other instruction takes input or waits for it.
  all_goals
    refine .inl ⟨rfl, rfl, ?_⟩
    grind [Machine.perform, Machine.store_input, Machine.store_pending, Machine.jump]

end Execution

namespace Machine

/-- The completion of the instruction that waits, if one waits and its character has arrived. -/
def resumed? (m : Machine) : Option Completion :=
  match m.pending, m.resume? with
  | some destination, some after => some ⟨destination, m, after⟩
  | _, _ => none

/-- The completions in the next step of a run: that of the instruction that waits, and then that of
the instruction which the step performs. -/
def completions (m : Machine) : List Completion :=
  if m.stopped then []
  else m.resumed?.toList ++ (m.execution?.bind Execution.completion?).toList

/-- A machine has become another one. What it had and what has arrived in the meantime is what has
been taken and what is left. What waited and has been performed is what has been completed and what
waits now. -/
structure Accounts (arrived : List Char) (performed : List Execution) (done : List Completion)
    (m m' : Machine) : Prop where
  input : m.input ++ arrived = done.filterMap Completion.taken? ++ m'.input
  pending : m.pending.toList ++ performed.filterMap Execution.inputDestination? =
    done.map Completion.destination ++ m'.pending.toList
  reads : ∀ c ∈ done, c.ReadsOne

namespace Accounts

variable {m m' m'' : Machine} {arrived arrived' : List Char} {performed performed' : List Execution}
  {done done' : List Completion}

theorem of_same (hinput : m'.input = m.input) (hpending : m'.pending = m.pending) :
    Accounts [] [] [] m m' where
  input := by simp [hinput]
  pending := by simp [hpending]
  reads := by simp

theorem trans (h : Accounts arrived performed done m m')
    (h' : Accounts arrived' performed' done' m' m'') :
    Accounts (arrived ++ arrived') (performed ++ performed') (done ++ done') m m'' where
  input := by
    rw [← List.append_assoc, h.input, List.append_assoc, h'.input, List.filterMap_append,
      List.append_assoc]
  pending := by
    rw [List.filterMap_append, ← List.append_assoc, h.pending, List.append_assoc, h'.pending,
      List.map_append, List.append_assoc]
  reads c hc := (List.mem_append.mp hc).elim (h.reads c) (h'.reads c)

theorem record (m : Machine) (f : Fault) : Accounts [] [] [] m (m.record f) := of_same rfl rfl

theorem receive (m : Machine) (text : String) :
    Accounts (Input.normalize text.toList) [] [] m (m.receive text) where
  input := rfl
  pending := by simp [Machine.receive]
  reads := by simp

/-- The completion of an instruction that waited. -/
theorem resume (h : m.resume? = some m') : Accounts [] [] m.resumed?.toList m m' := by
  obtain ⟨hpending, h'⟩ | ⟨_, -, -, h'⟩ | ⟨dest, c, rest, hpending, hinput, h'⟩ := m.resume?_cases
  · cases h'.symm.trans h
    rw [resumed?, hpending]
    exact of_same rfl rfl
  · cases h'.symm.trans h
  · -- What waited is completed with the first character, and nothing waits any longer.
    have hresumed : m.resumed? = some ⟨dest, m, m'⟩ := by rw [resumed?, hpending, h]
    obtain rfl := Option.some.inj (h'.symm.trans h)
    rw [hresumed]
    exact {
      input := by simp [Completion.taken?, hinput]
      pending := by simp [hpending]
      reads := by simpa using ⟨c, rest, hinput, rfl⟩ }

theorem fetch (m : Machine) : Accounts [] [] [] m m.fetch.2 := by
  refine of_same ?_ m.fetch_pending
  obtain ⟨-, h⟩ | ⟨_, -, -, -, h⟩ | ⟨_, _, -, h⟩ := m.fetch_cases <;> rw [h]
  rfl

/-- An instruction that is performed while no other one waits. -/
theorem execution {e : Execution} (h : e.machine.pending = none) :
    Accounts [] [e] e.completion?.toList e.machine e.result.1 := by
  obtain ⟨hnone, hdone, hinput, hpending⟩ | ⟨dest, hdest, hdone, hinput, hresult⟩ |
    ⟨dest, c, rest, hdest, hdone, hinput, hresult⟩ := e.input_cases
  · rw [hdone]
    exact {
      input := by simp [hinput]
      pending := by simp [hnone, hpending]
      reads := by simp }
  · rw [hdone, hresult]
    exact {
      input := by simp
      pending := by simp [h, hdest]
      reads := by simp }
  · rw [hdone, hresult]
    exact {
      input := by simp [Completion.taken?, hinput]
      pending := by simp [h, hdest]
      reads := by simpa using ⟨c, rest, hinput, by rw [← h]⟩ }

end Accounts

end Machine

namespace Session

variable {σ : Type} [Host σ]

/-- A fault that the execution of an instruction runs into is only recorded. -/
theorem execute_accounts (s : Session σ) (i : Instruction) (h : s.machine.pending = none) :
    Machine.Accounts [] [⟨s.machine, i⟩] (Execution.completion? ⟨s.machine, i⟩).toList s.machine
      (s.execute i).2.machine := by
  have hperformed := Machine.Accounts.execution (e := ⟨s.machine, i⟩) h
  obtain h | ⟨f, h⟩ := s.execute_machine i <;> rw [h]
  · exact hperformed
  · have hrecorded := hperformed.trans (.record _ f)
    simp only [List.append_nil] at hrecorded
    exact hrecorded

/-- A step, whatever it comes to, balances. -/
theorem advance_accounts (s : Session σ) :
    Machine.Accounts [] s.machine.execution?.toList s.machine.completions s.machine
      s.advance.2.machine := by
  unfold advance Machine.execution? Machine.completions Machine.execution?
  split
  · exact .of_same rfl rfl
  cases hresume : s.machine.resume? with
  | none =>
    -- Without a character nothing is completed, whether the flush succeeds or not.
    have hnone : s.machine.resumed? = none := by
      rw [Machine.resumed?, hresume]
      cases s.machine.pending <;> rfl
    rw [hnone]
    obtain ⟨_, hawait⟩ | ⟨reason, _, hawait⟩ := s.awaitInput_cases <;> simp only [hawait]
    · exact .of_same rfl rfl
    · exact .record _ _
  | some m =>
    -- By the time the step performs its instruction nothing waits, so that this one may.
    have hfetched := (Machine.Accounts.resume hresume).trans (.fetch m)
    have hpending := m.fetch_pending.trans (Machine.resume?_eq_some hresume).1
    simp only [Option.bind_some, runOne]
    rcases hfetch : fetch ⟨m, s.host⟩ with ⟨f | i, s₁⟩ <;>
      rw [machine_fetch_eq hfetch] at hfetched hpending ⊢
    · simpa using hfetched
    · have hexecuted := s₁.execute_accounts i hpending
      dsimp only
      rcases hexecute : s₁.execute i with ⟨_ | _, s₂⟩ <;> rw [hexecute] at hexecuted <;>
        simpa using hfetched.trans hexecuted

/-- The completions in the course of some actions, in order. -/
def completions : List Action → Session σ → List Completion
  | [], _ => []
  | .send text :: rest, s => completions rest (s.sendInput text)
  | .step :: rest, s => s.machine.completions ++ completions rest s.advance.2

/-- Every history balances. -/
theorem replay_accounts (s : Session σ) (actions : List Action) :
    Machine.Accounts (arrivals actions) (s.executions actions) (s.completions actions) s.machine
      (s.replay actions).2.machine := by
  induction actions generalizing s with
  | nil => exact .of_same rfl rfl
  | cons action rest ih =>
    cases action with
    | send text => exact (Machine.Accounts.receive s.machine text).trans (ih (s.sendInput text))
    | step =>
      rw [replay_step]
      exact s.advance_accounts.trans (ih s.advance.2)

/-- Nothing of the input is lost, doubled or reordered. Since a program has been loaded, the
characters that arrived are those that input instructions have taken and those that are left. The
instructions are completed in the order in which they are performed, and only the last one may still
wait. Each takes one character, of which it leaves the code in the register that it names, or
nothing if it names none. -/
theorem input_conserved (s : Session σ) {image : List UInt8} (hfits : image.length ≤ Memory.size)
    (actions : List Action) :
    let loaded := (s.load image).2
    let done := loaded.completions actions
    let now := (loaded.replay actions).2.machine
    arrivals actions = done.filterMap Completion.taken? ++ now.input ∧
      (loaded.executions actions).filterMap Execution.inputDestination? =
        done.map Completion.destination ++ now.pending.toList ∧
      ∀ c ∈ done, ∃ char, c.before.input = char :: c.after.input ∧
        ∀ r, (c.after.registers.get r).toNat =
          if c.destination.register? = some r then
            if char = '\n' ∨ char = '\r' then 10 else if char = ' ' then 32
            else char.toNat % 32768
          else (c.before.registers.get r).toNat := by
  intro loaded done now
  -- The books begin with nothing in the input and nothing that waits.
  have hloaded : loaded.machine = .boot (.ofImage image hfits) := by
    simp only [loaded, load_of_le s hfits]
  obtain ⟨hinput, hpending, hreads⟩ := loaded.replay_accounts actions
  refine ⟨?_, ?_, fun c hc => ?_⟩
  · simpa [hloaded, Machine.boot] using hinput
  · simpa [hloaded, Machine.boot] using hpending
  · obtain ⟨char, hfirst, hregisters⟩ := (hreads c hc).registers_eq
    refine ⟨char, hfirst, fun r => ?_⟩
    rw [hregisters, apply_ite UInt16.toNat, Input.toNat_code]

/-- The program reads one character into a register and drops the next one. The first instruction
waits for its character. -/
theorem input_conserved_waits :
    let image : List UInt8 := [20, 0, 1, 128, 20, 0, 5, 0, 0, 0]
    let s := (fresh.load image).2
    let actions : List Action := [.step, .step, .send "a\r\nb", .step, .step]
    image.length ≤ Memory.size ∧ arrivals actions = ['a', '\n', 'b'] ∧
      (s.completions actions).filterMap Completion.taken? = ['a', '\n'] ∧
      (s.completions actions).map Completion.destination = [.register 1 0, .literal 5] ∧
      (s.replay actions).2.machine.input = ['b'] := by
  intro image s actions
  have hfits : image.length ≤ Memory.size := by decide
  have harrived : arrivals actions = ['a', '\n', 'b'] := by decide
  have htaken : (s.completions actions).filterMap Completion.taken? = ['a', '\n'] := by
    decide +kernel
  have hperformed : (s.executions actions).filterMap Execution.inputDestination? =
      [.register 1 0, .literal 5] := by decide +kernel
  have hpending : (s.replay actions).2.machine.pending = none := by decide +kernel
  obtain ⟨hinput, hdone, -⟩ := fresh.input_conserved hfits actions
  rw [harrived, htaken] at hinput
  rw [hperformed, hpending] at hdone
  exact ⟨hfits, harrived, htaken, by simpa using hdone.symm, by simpa using hinput.symm⟩

end Session

end WordVM
