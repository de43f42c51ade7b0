import WordVM.Proofs.Waiting

/-!
# What instructions leave alone

An instruction by itself never touches the recorded fault (`Machine.perform_fault`), and it sets the
halt flag only if it ends the run (`Machine.perform_halted`). What an execution makes of it is one
of four things (`Session.execute_of_perform`). Proofs about steps and runs rest on these and need
not look at opcodes again.
-/

namespace WordVM

namespace Machine

@[simp] theorem jump_fault (m : Machine) (target : Operand) : (m.jump target).fault = m.fault := rfl

@[simp] theorem jump_halted (m : Machine) (target : Operand) : (m.jump target).halted = m.halted :=
  rfl

theorem takeInput?_eq_some {m m' : Machine} {w : Word} (h : m.takeInput? = some (w, m')) :
    ∃ c rest, m.input = c :: rest ∧ w = Input.code c ∧ m' = { m with input := rest } := by
  unfold takeInput? at h
  split at h
  · cases h
  · next c rest hinput =>
    obtain ⟨rfl, rfl⟩ := by simpa using h
    exact ⟨c, rest, hinput, rfl, rfl⟩

/-- No instruction records a fault by itself or takes one back. -/
theorem perform_fault (m : Machine) (i : Instruction) : (m.perform i).1.fault = m.fault := by
  obtain ⟨pc, op, o⟩ := i
  cases op
  case input =>
    simp only [perform]
    rcases htake : m.takeInput? with _ | ⟨w, m'⟩
    · rfl
    · obtain ⟨_, _, -, -, rfl⟩ := takeInput?_eq_some htake
      rw [store_fault]
  all_goals grind [perform, store_fault, jump_fault]

/-- A machine halts with the instruction that ends its run, and not otherwise. -/
theorem perform_halted (m : Machine) (i : Instruction) :
    (m.perform i).1.halted = true ↔ m.halted = true ∨ (m.perform i).2 = .exit := by
  obtain ⟨pc, op, o⟩ := i
  cases op
  case input =>
    simp only [perform]
    rcases htake : m.takeInput? with _ | ⟨w, m'⟩
    · simp
    · obtain ⟨_, _, -, -, rfl⟩ := takeInput?_eq_some htake
      simp
  all_goals grind [perform, store_halted, jump_halted]

end Machine

namespace Session

variable {σ : Type} [Host σ]

/-- What an execution can come to, by the effect of its instruction. The host has a say only where
it is asked to write or to flush: then the outcome may be a fault instead. -/
theorem execute_of_perform {s : Session σ} {i : Instruction} {m : Machine} {effect : Effect}
    (h : s.machine.perform i = (m, effect)) :
    ∃ host,
      (effect ≠ .exit ∧ ∃ f, s.execute i = (.error f, ⟨m.record f, host⟩)) ∨
      ((effect = .next ∨ ∃ c, effect = .emit c) ∧ s.execute i = (.ok .next, ⟨m, host⟩)) ∨
      (effect = .exit ∧ s.execute i = (.ok .exit, ⟨m, host⟩)) ∨
      (effect = .await ∧ s.execute i = (.ok .needInput, ⟨m, host⟩)) := by
  have hfail (host : σ) (f : Fault) : fail ⟨m, host⟩ f = ⟨m.record f, (fail ⟨m, host⟩ f).host⟩ := by
    rw [← fail_machine ⟨m, host⟩]
  simp only [execute, h]
  cases effect with
  | next => exact ⟨s.host, .inr (.inl ⟨.inl rfl, rfl⟩)⟩
  | exit => exact ⟨s.host, .inr (.inr (.inl ⟨rfl, rfl⟩))⟩
  | fault f => exact ⟨_, .inl ⟨by simp, f, Prod.ext rfl (hfail ..)⟩⟩
  | emit c =>
    dsimp only
    obtain ⟨reason | _, host⟩ := Host.writeAll s.host (String.utf8EncodeChar c)
    · exact ⟨_, .inl ⟨by simp, .output reason, Prod.ext rfl (hfail ..)⟩⟩
    · exact ⟨host, .inr (.inl ⟨.inr ⟨c, rfl⟩, rfl⟩)⟩
  | await =>
    obtain ⟨host, hawait⟩ | ⟨reason, host, hawait⟩ := awaitInput_cases ⟨m, s.host⟩
    · exact ⟨host, .inr (.inr (.inr ⟨rfl, hawait⟩))⟩
    · exact ⟨host, .inl ⟨by simp, .output reason, hawait⟩⟩

end Session

end WordVM
