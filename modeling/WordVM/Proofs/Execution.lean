import WordVM.Proofs.ProgramCounter

/-!
# Executions

A step performs one instruction at most. `Machine.execution?` tells which one, and on which machine:
the input instruction that waited has been completed, and the fetch has moved the program counter.
`Session.advance_cases` says what a step can come to, with an execution and without one, and
`Session.executions` lists the executions of a history.

What nothing but instructions can change (`Machine.KeptBetween`) need only be followed from one
execution to the next: it holds at an execution if no earlier one has broken it
(`Session.of_executions`), and after a history if none has (`Session.replay_of_executions`).
-/

namespace WordVM

/-- An instruction that is about to be performed, and the machine that has fetched it. -/
structure Execution where
  machine : Machine
  instruction : Instruction

/-- What a register holds after a store: the word, if it is the one that the destination names. -/
theorem Machine.get_store (m : Machine) (dest : Operand) (w : Word) (r : Fin registerCount) :
    (m.store dest w).registers.get r =
      if dest.register? = some r then w else m.registers.get r := by
  cases dest with
  | literal value => rfl
  | register index value =>
    show (m.registers.set index w)[r.val] = _
    rw [Vector.getElem_set]
    simp only [Operand.register?, Option.some.injEq, Fin.ext_iff]
    rfl

namespace Instruction

/-- The value of an operand. For an operand that the instruction does not have, this is zero. -/
def valueAt (i : Instruction) (k : Nat) : Word := i.operands[k]?.elim 0 Operand.value

/-- The register that the first operand names, if there is one and it names one. -/
def destination? (i : Instruction) : Option (Fin registerCount) :=
  i.operands[0]?.bind Operand.register?

variable {pc : Nat} {op : Opcode} {o : Vector Operand op.arity}

theorem valueAt_eq {k : Nat} (h : k < op.arity) : valueAt ⟨pc, op, o⟩ k = o[k].value := by
  rw [valueAt, Vector.getElem?_eq_getElem h, Option.elim_some]

theorem destination?_eq (h : 0 < op.arity) : destination? ⟨pc, op, o⟩ = o[0].register? := by
  rw [destination?, Vector.getElem?_eq_getElem h, Option.bind_some]

end Instruction

namespace Execution

/-- What comes of performing the instruction. -/
def result (e : Execution) : Machine × Effect := e.machine.perform e.instruction

/-- The word that the instruction leaves in the register which its first operand names. There is
none if the instruction fails. -/
def stored? (e : Execution) : Option Word :=
  match e.instruction.destination?, e.result with
  | some r, (m, .next) => some (m.registers.get r)
  | _, _ => none

variable {m : Machine} {pc : Nat} {op : Opcode} {o : Vector Operand op.arity} {w v : Word}

/-- What an instruction stores that stores a word in the register of its first operand. -/
theorem stored?_of_store (h : 0 < op.arity)
    (hperform : m.perform ⟨pc, op, o⟩ = (m.store o[0] w, .next)) :
    stored? ⟨m, ⟨pc, op, o⟩⟩ = o[0].register?.map fun _ => w := by
  simp only [stored?, Instruction.destination?_eq h, result, hperform]
  cases o[0] with
  | literal value => rfl
  | register index value =>
    exact congrArg some ((m.get_store _ w index).trans (if_pos rfl))

theorem eq_of_stored?_of_store (hv : stored? ⟨m, ⟨pc, op, o⟩⟩ = some v) (h : 0 < op.arity)
    (hperform : m.perform ⟨pc, op, o⟩ = (m.store o[0] w, .next)) : v = w := by
  rw [stored?_of_store h hperform] at hv
  obtain ⟨_, -, rfl⟩ := Option.map_eq_some_iff.mp hv
  rfl

end Execution

namespace Machine

variable {m m' : Machine} {e : Execution}

/-- What the next step of a run performs, if it performs an instruction. -/
def execution? (m : Machine) : Option Execution :=
  if m.stopped then none
  else
    m.resume?.bind fun m =>
      match m.fetch with
      | (.ok i, m) => some ⟨m, i⟩
      | (.error _, _) => none

/-- An instruction is performed by a machine that has not stopped, after what waited. -/
theorem execution?_eq_some_iff : m.execution? = some e ↔ m.stopped = false ∧
    ∃ m₁, m.resume? = some m₁ ∧ m₁.fetch = (.ok e.instruction, e.machine) := by
  unfold execution?
  cases m.stopped with
  | true => simp
  | false =>
    cases m.resume? with
    | none => simp
    | some m₁ =>
      rcases hfetch : m₁.fetch with ⟨f | i, m₂⟩
      · simp [hfetch]
      · simp only [Bool.false_eq_true, if_false, Option.bind_some, hfetch, Option.some.injEq,
          true_and, exists_eq_left', Prod.mk.injEq, Except.ok.injEq]
        constructor
        · rintro rfl
          exact ⟨rfl, rfl⟩
        · rintro ⟨rfl, rfl⟩
          rfl

/-- An operand that has been fetched is a literal of fifteen bits, or a register with the content
that it has. -/
theorem operand_cases_of_fetch {i : Instruction} (h : m.fetch = (.ok i, m')) {o : Operand}
    (ho : o ∈ i.operands) :
    (∃ value, o = .literal value ∧ value.toNat ≤ 32767) ∨
      ∃ index, o = .register index (m'.registers.get index) := by
  obtain ⟨-, h'⟩ | ⟨_, -, -, -, h'⟩ | ⟨op, hpc, -, h'⟩ := m.fetch_cases <;>
    rw [h', Prod.mk.injEq] at h <;> obtain ⟨hi, rfl⟩ := h <;> cases hi
  · exact absurd ho (Vector.not_mem_empty _)
  · obtain ⟨raw, -, hraw⟩ := Vector.mem_map.mp ho
    by_cases hlit : raw.toNat < 32768
    · rw [Operand.decode_literal _ hlit] at hraw
      exact .inl ⟨raw, hraw.symm, Nat.le_of_lt_succ hlit⟩
    · by_cases hreg : raw.toNat < 32776
      · rw [Operand.decode_register _ ⟨raw.toNat - 32768, by show _ < 8; omega⟩
          (by dsimp only; omega)] at hraw
        exact .inr ⟨_, hraw.symm⟩
      -- A bad operand word reads as zero.
      · rw [Operand.decode_invalid _ (Nat.not_lt.mp hreg)] at hraw
        exact .inl ⟨0, hraw.symm, Nat.zero_le _⟩

/-- The operands of an instruction that is about to be performed. -/
theorem operand_cases_of_execution (h : m.execution? = some e) {o : Operand}
    (ho : o ∈ e.instruction.operands) :
    (∃ value, o = .literal value ∧ value.toNat ≤ 32767) ∨
      ∃ index, o = .register index (e.machine.registers.get index) := by
  obtain ⟨-, m₁, -, hfetch⟩ := execution?_eq_some_iff.mp h
  exact operand_cases_of_fetch hfetch ho

/-- A property that is kept by all that happens between two instructions. -/
structure KeptBetween (P : Machine → Prop) : Prop where
  receive : ∀ {m} (text), P m → P (m.receive text)
  record : ∀ {m} (f), P m → P (m.record f)
  resume : ∀ {m m'}, m.resume? = some m' → P m → P m'
  fetch : ∀ {m}, P m → P m.fetch.2

theorem KeptBetween.execution {P : Machine → Prop} (h : KeptBetween P) (hm : P m)
    (he : m.execution? = some e) : P e.machine := by
  obtain ⟨-, m₁, hresume, hfetch⟩ := execution?_eq_some_iff.mp he
  have hfetched := h.fetch (h.resume hresume hm)
  rw [hfetch] at hfetched
  exact hfetched

end Machine

namespace Session

variable {σ : Type} [Host σ]

/-! ## Steps -/

/-- An execution leaves the machine that its instruction leaves, with a fault recorded or not. -/
theorem execute_machine (s : Session σ) (i : Instruction) :
    (s.execute i).2.machine = (s.machine.perform i).1 ∨
      ∃ f, (s.execute i).2.machine = (s.machine.perform i).1.record f := by
  obtain ⟨host, ⟨-, f, h⟩ | ⟨-, h⟩ | ⟨-, h⟩ | ⟨-, h⟩⟩ :=
    execute_of_perform (s := s) (i := i) rfl <;> rw [h]
  · exact .inr ⟨f, rfl⟩
  · exact .inl rfl
  · exact .inl rfl
  · exact .inl rfl

/-- What a step comes to. Without an execution the machine stays as it is or a fault is recorded, or
else the fetch fails, after what waited. With one the machine is the one that the instruction
leaves, and again a fault may be recorded. -/
theorem advance_cases (s : Session σ) :
    (s.machine.execution? = none ∧
      (s.advance.2.machine = s.machine ∨ (∃ f, s.advance.2.machine = s.machine.record f) ∨
        ∃ m, s.machine.resume? = some m ∧ s.advance.2.machine = m.fetch.2)) ∨
      ∃ e, s.machine.execution? = some e ∧ (s.advance.2.machine = e.result.1 ∨
        ∃ f, s.advance.2.machine = e.result.1.record f) := by
  unfold advance Machine.execution?
  split
  · exact .inl ⟨rfl, .inl rfl⟩
  cases hresume : s.machine.resume? with
  | none =>
    refine .inl ⟨rfl, ?_⟩
    obtain ⟨_, hawait⟩ | ⟨reason, _, hawait⟩ := s.awaitInput_cases <;> rw [hawait]
    · exact .inl rfl
    · exact .inr (.inl ⟨_, rfl⟩)
  | some m =>
    simp only [Option.bind_some, runOne]
    rcases hfetch : fetch ⟨m, s.host⟩ with ⟨f | i, s₁⟩ <;>
      have hplain := machine_fetch_eq hfetch <;> rw [hplain]
    · exact .inl ⟨rfl, .inr (.inr ⟨m, rfl, by rw [hplain]⟩)⟩
    · refine .inr ⟨_, rfl, ?_⟩
      have hmachine := s₁.execute_machine i
      dsimp only
      rcases hexecute : s₁.execute i with ⟨_ | _, s₂⟩ <;> rw [hexecute] at hmachine <;>
        exact hmachine

theorem advance_of_kept {P : Machine → Prop} (h : Machine.KeptBetween P) {s : Session σ}
    (hs : P s.machine)
    (hexecution : ∀ e, s.machine.execution? = some e → P e.machine → P e.result.1) :
    P s.advance.2.machine := by
  obtain ⟨-, hsame | ⟨f, hsame⟩ | ⟨m, hresume, hsame⟩⟩ | ⟨e, he, hsame | ⟨f, hsame⟩⟩ :=
    s.advance_cases <;> rw [hsame]
  · exact hs
  · exact h.record f hs
  · exact h.fetch (h.resume hresume hs)
  · exact hexecution e he (h.execution hs he)
  · exact h.record f (hexecution e he (h.execution hs he))

/-! ## Histories -/

/-- The instructions that are performed in the course of some actions, in order. -/
def executions : List Action → Session σ → List Execution
  | [], _ => []
  | .send text :: rest, s => executions rest (s.sendInput text)
  | .step :: rest, s => s.machine.execution?.toList ++ executions rest s.advance.2

@[simp] theorem executions_nil (s : Session σ) : s.executions [] = [] := rfl

@[simp] theorem executions_send (text : String) (rest : List Action) (s : Session σ) :
    s.executions (.send text :: rest) = (s.sendInput text).executions rest := rfl

@[simp] theorem executions_step (rest : List Action) (s : Session σ) :
    s.executions (.step :: rest) =
      s.machine.execution?.toList ++ s.advance.2.executions rest := rfl

/-- The executions of a history are those of its first part, and then those of the rest. -/
theorem executions_append (past rest : List Action) (s : Session σ) :
    s.executions (past ++ rest) =
      s.executions past ++ (s.replay past).2.executions rest := by
  induction past generalizing s with
  | nil => rfl
  | cons action past ih =>
    cases action with
    | send text => exact ih (s.sendInput text)
    | step =>
      rw [List.cons_append, executions_step, ih, executions_step, replay_step,
        List.append_assoc]

theorem exists_of_mem_executions {s : Session σ} {actions : List Action} {e : Execution}
    (h : e ∈ s.executions actions) : ∃ m : Machine, m.execution? = some e := by
  induction actions generalizing s with
  | nil => cases h
  | cons action rest ih =>
    cases action with
    | send text => exact ih h
    | step =>
      rw [executions_step, List.mem_append, Option.mem_toList] at h
      rcases h with h | h
      · exact ⟨_, h⟩
      · exact ih h

/-- A property holds at an execution, if it holds before the history and none of the executions
before has broken it. -/
theorem of_executions {P : Machine → Prop} (h : Machine.KeptBetween P) {s : Session σ}
    (hs : P s.machine) {actions : List Action} {before after : List Execution} {e : Execution}
    (hsplit : s.executions actions = before ++ e :: after)
    (hbefore : ∀ e' ∈ before, P e'.machine → P e'.result.1) : P e.machine := by
  induction actions generalizing s before with
  | nil => simp at hsplit
  | cons action rest ih =>
    cases action with
    | send text => exact ih (h.receive text hs) hsplit hbefore
    | step =>
      rw [executions_step] at hsplit
      cases hfirst : s.machine.execution? with
      | none =>
        rw [hfirst] at hsplit
        exact ih (advance_of_kept h hs (by simp [hfirst])) hsplit hbefore
      | some e₁ =>
        rw [hfirst, Option.toList_some, List.singleton_append] at hsplit
        -- Either this is the execution in question, or it is one of those before it.
        cases before with
        | nil =>
          obtain ⟨rfl, -⟩ := List.cons.inj hsplit
          exact h.execution hs hfirst
        | cons e₂ before =>
          rw [List.cons_append] at hsplit
          obtain ⟨rfl, hrest⟩ := List.cons.inj hsplit
          rw [List.forall_mem_cons] at hbefore
          refine ih (advance_of_kept h hs fun e' he' => ?_) hrest hbefore.2
          cases hfirst.symm.trans he'
          exact hbefore.1

/-- A property holds after a history, if it holds before and no execution breaks it. -/
theorem replay_of_executions {P : Machine → Prop} (h : Machine.KeptBetween P) {s : Session σ}
    (hs : P s.machine) {actions : List Action}
    (hkept : ∀ e ∈ s.executions actions, P e.machine → P e.result.1) :
    P (s.replay actions).2.machine := by
  induction actions generalizing s with
  | nil => exact hs
  | cons action rest ih =>
    cases action with
    | send text => exact ih (h.receive text hs) hkept
    | step =>
      rw [replay_step]
      simp only [executions_step, List.mem_append, Option.mem_toList] at hkept
      exact ih (advance_of_kept h hs fun e he => hkept e (.inl he)) fun e he => hkept e (.inr he)

end Session

end WordVM
