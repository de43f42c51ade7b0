import WordVM.Proofs.Stepping

/-!
# How runs end

Only instructions without operands end a run (`Machine.arity_of_perform`), and nothing is recorded
when one of these is fetched (`Machine.fetch_fault`). So a step that halts the machine leaves no
fault behind, and what its outcome says of the machine is `Machine.EndsWith`. Reachable machines are
never both halted and at fault (`Session.Reachable.fault_of_halted`), and `run_ends_for_one_reason`
says how the runs from them end.
-/

namespace WordVM

/-- An instruction without operands has no bad one. -/
theorem Instruction.operandFault?_of_arity_eq_zero {op : Opcode} (hop : op.arity = 0)
    {memory : Memory} {registers : Registers} {pc : Nat} (h : pc < programCeiling) :
    operandFault? memory registers pc h op = none := by
  have hwords : (operandWords memory pc h op).toList = [] := by
    rw [← List.length_eq_zero_iff, Vector.length_toList, hop]
  rw [operandFault?_eq_findSome?, hwords, List.findSome?_nil]

namespace Machine

variable {m m' : Machine} {i : Instruction}

/-- What the outcome of a step says of the machine that the step leaves behind. -/
def EndsWith (m : Machine) : Outcome → Prop
  | .next => m.halted = false
  | .needInput => m.halted = false ∧ m.pending.isSome = true ∧ m.input = []
  | .exit => m.halted = true ↔ m.fault = none

/-- Whatever the outcome, the machine is not both halted and at fault. -/
theorem EndsWith.fault_of_halted {outcome : Outcome} (h : m.EndsWith outcome)
    (hhalted : m.halted = true) : m.fault = none := by
  cases outcome with
  | next => exact absurd hhalted (by simp [h.symm])
  | needInput => exact absurd hhalted (by simp [h.1])
  | exit => exact h.mp hhalted

/-- Only instructions without operands end a run. -/
theorem arity_of_perform (h : (m.perform i).2 = .exit) : i.opcode.arity = 0 := by
  obtain ⟨pc, op, o⟩ := i
  cases op
  case halt | ret => rfl
  -- The others ask for something else.
  all_goals
    exfalso
    simp only [perform] at h
    grind

/-- A fetch records nothing beside an instruction without operands. -/
theorem fetch_fault (h : m.fetch = (.ok i, m')) (harity : i.opcode.arity = 0) :
    m'.fault = m.fault := by
  obtain ⟨-, hfetch⟩ | ⟨_, -, -, -, hfetch⟩ | ⟨op, hpc, -, hfetch⟩ := m.fetch_cases <;>
    rw [hfetch, Prod.mk.injEq] at h <;> obtain ⟨hi, rfl⟩ := h <;> cases hi
  · rfl
  · simp [Instruction.operandFault?_of_arity_eq_zero (show op.arity = 0 from harity)]

theorem record_fault_ne_none (m : Machine) (f : Fault) : (m.record f).fault ≠ none := by
  simp [record]

end Machine

namespace Session

variable {σ τ : Type} [Host σ]

/-! ## Steps -/

/-- What is executed on a machine that has not halted. -/
theorem execute_endsWith {s : Session σ} {i : Instruction} (hhalted : s.machine.halted = false)
    (hfault : i.opcode.arity = 0 → s.machine.fault = none) :
    (s.execute i).2.machine.EndsWith ((s.execute i).1.toOption.getD .exit) := by
  rcases hperform : s.machine.perform i with ⟨m, effect⟩
  have hhalted' := s.machine.perform_halted i
  have hfault' := s.machine.perform_fault i
  rw [hperform, hhalted] at hhalted'
  rw [hperform] at hfault'
  obtain ⟨host, ⟨heffect, f, h⟩ | ⟨heffect, h⟩ | ⟨rfl, h⟩ | ⟨rfl, h⟩⟩ :=
    execute_of_perform hperform <;> rw [h]
  · show m.halted = true ↔ (m.record f).fault = none
    simpa [m.record_fault_ne_none, heffect] using hhalted'
  · show m.halted = false
    rcases heffect with rfl | ⟨c, rfl⟩ <;> simpa using hhalted'
  · have harity := Machine.arity_of_perform (congrArg Prod.snd hperform)
    exact iff_of_true (hhalted'.mpr (.inr rfl)) (hfault'.trans (hfault harity))
  · obtain ⟨hawait, -⟩ | ⟨_, _, -, hinput, rfl, -⟩ := Machine.perform_cases hperform
    · exact absurd rfl hawait
    · exact ⟨hhalted, rfl, hinput⟩

theorem runOne_endsWith {s : Session σ} (h : s.machine.stopped = false) :
    s.runOne.2.machine.EndsWith s.runOne.1 := by
  obtain ⟨hhalted, hfault⟩ := Machine.stopped_eq_false_iff.mp h
  have hhalted' : s.fetch.2.machine.halted = false := by
    rw [fetch_machine, Machine.fetch_halted, hhalted]
  rcases hfetch : s.fetch with ⟨f | i, s'⟩ <;> rw [hfetch] at hhalted'
  · -- A fetch that fails has recorded why.
    have hfault' : s'.machine.fault ≠ none := by
      obtain ⟨-, h⟩ | ⟨_, -, -, -, h⟩ | ⟨_, _, -, h⟩ := s.machine.fetch_cases <;>
        rw [machine_fetch_eq hfetch, Prod.mk.injEq] at h <;> obtain ⟨hi, hmachine⟩ := h <;> cases hi
      exact hmachine ▸ Machine.record_fault_ne_none _ _
    rw [runOne, hfetch]
    change s'.machine.halted = false at hhalted'
    exact iff_of_false (by simp [hhalted']) hfault'
  · rw [runOne_of_fetch hfetch]
    exact execute_endsWith hhalted' fun harity =>
      (Machine.fetch_fault (machine_fetch_eq hfetch) harity).trans hfault

/-- Every step of a machine that is not both halted and at fault ends as its outcome says. -/
theorem advance_endsWith {s : Session σ}
    (h : s.machine.halted = true → s.machine.fault = none) :
    s.advance.2.machine.EndsWith s.advance.1 := by
  unfold advance
  split
  · next hstopped =>
    -- The machine is halted or at fault, and it is not both.
    have hreason : s.machine.halted = true ∨ s.machine.fault.isSome = true := by
      simpa [Machine.stopped] using hstopped
    show s.machine.halted = true ↔ s.machine.fault = none
    refine ⟨h, fun hfault => ?_⟩
    simpa [hfault] using hreason
  · next hrunning =>
    have hstopped : s.machine.stopped = false := Bool.not_eq_true _ ▸ hrunning
    obtain ⟨hhalted, hfault⟩ := Machine.stopped_eq_false_iff.mp hstopped
    rcases s.machine.resume?_cases with ⟨-, hresume⟩ | ⟨dest, hdest, hinput, hresume⟩ |
      ⟨_, _, _, -, -, hresume⟩ <;> rw [hresume]
    · exact runOne_endsWith hstopped
    · rcases s.awaitInput_cases with ⟨host, hawait⟩ | ⟨reason, host, hawait⟩ <;>
        simp only [hawait]
      · exact ⟨hhalted, by rw [hdest, Option.isSome_some], hinput⟩
      · exact iff_of_false (by simp [hhalted]) (Machine.record_fault_ne_none _ _)
    · exact runOne_endsWith (Machine.stopped_eq_false_iff.mpr (by simp [hhalted, hfault]))

/-- Reachable machines are not both halted and at fault. -/
theorem Reachable.fault_of_halted {s : Session σ} (h : s.Reachable) :
    s.machine.halted = true → s.machine.fault = none := by
  induction h with
  | initial host => exact fun _ => rfl
  | load h image ih =>
    simp only [Session.load]
    split
    · exact fun _ => rfl
    · exact ih
  | send h text ih => exact ih
  | step h ih => exact (advance_endsWith ih).fault_of_halted

/-! ## Runs -/

/-- A run that has reached its limit goes on from there within a higher one. -/
theorem execTraced_add (tracer : Tracer τ) (limit more : Nat) (s : Session σ) (t : τ) :
    execTraced tracer (limit + more) s t =
      match execTraced tracer limit s t with
      | (.next, s, t) => execTraced tracer more s t
      | result => result := by
  induction limit generalizing s t with
  | zero => rw [Nat.zero_add]; rfl
  | succ limit ih =>
    rw [Nat.add_right_comm, execTraced, execTraced]
    rcases s.step tracer t with ⟨_ | _ | _, s₁, t₁⟩
    · exact ih s₁ t₁
    · rfl
    · rfl

/-- A run ends for one reason. A machine that loads, inputs and runs lead to is never both halted
and at fault. Take a run from it, under any tracer, the silent one included, and with any limit.
* If the run is over, then the machine is either halted or at fault, and not both.
* If it waits, then the machine is not halted, an input instruction is remembered, and there is no
  input.
* No run ends with `next`. This answer only says that the limit is reached, and within a higher
  limit the run goes on from there. With any other answer the limit does not matter. -/
theorem run_ends_for_one_reason {s : Session σ} (h : s.Reachable) (tracer : Tracer τ)
    (limit : Nat) (t : τ) :
    let (outcome, s', t') := execTraced tracer limit s t
    ¬(s.machine.halted = true ∧ s.machine.fault ≠ none) ∧
      (outcome = .exit → (s'.machine.halted = true ↔ s'.machine.fault = none)) ∧
      (outcome = .needInput →
        s'.machine.halted = false ∧ s'.machine.pending.isSome = true ∧ s'.machine.input = []) ∧
      (outcome = .next →
        ∀ more, execTraced tracer (limit + more) s t = execTraced tracer more s' t') ∧
      (outcome ≠ .next → ∀ more, execTraced tracer (limit + more) s t = (outcome, s', t')) := by
  have hexec := execTraced_eq_exec tracer limit s t
  have hadd (more : Nat) := execTraced_add tracer limit more s t
  rcases hrun : execTraced tracer limit s t with ⟨outcome, s', t'⟩
  rw [hrun] at hexec hadd
  -- The last step is one from a machine that is not both halted and at fault.
  have hends (hover : outcome ≠ .next) : s'.machine.EndsWith outcome := by
    obtain ⟨s₁, hreachable, hstep⟩ := h.exists_last_step hexec.symm hover
    have hlast := advance_endsWith hreachable.fault_of_halted
    rwa [hstep] at hlast
  refine ⟨fun hboth => hboth.2 (h.fault_of_halted hboth.1), ?_, ?_, ?_, ?_⟩
  · rintro rfl
    exact hends (by simp)
  · rintro rfl
    exact hends (by simp)
  · rintro rfl
    exact hadd
  · intro hover more
    rw [hadd more]
    cases outcome with
    | next => exact absurd rfl hover
    | needInput | exit => rfl

/-- The program reads a character into a register and returns to nowhere. -/
theorem run_ends_for_one_reason_return :
    let s := (fresh.load [20, 0, 0, 128, 18, 0]).2
    let s' := ((s.exec 9).2.sendInput "y\n").exec 9
    s.Reachable ∧ (s.exec 9).1 = .needInput ∧ (s.exec 9).2.machine.input = [] ∧
      s'.1 = .exit ∧ (s'.2.machine.halted = true ↔ s'.2.machine.fault = none) := by
  intro s s'
  have hreachable : s.Reachable := (Reachable.initial _).load _
  have hsent : ((s.exec 9).2.sendInput "y\n").Reachable := (hreachable.exec 9).send "y\n"
  have hwaits : (s.exec 9).1 = .needInput := by decide +kernel
  have hover : s'.1 = .exit := by decide +kernel
  obtain ⟨-, -, hinput, -⟩ := run_ends_for_one_reason hreachable .silent 9 ()
  obtain ⟨-, hexit, -⟩ := run_ends_for_one_reason hsent .silent 9 ()
  exact ⟨hreachable, hwaits, (hinput hwaits).2.2, hover, hexit hover⟩

end Session

end WordVM
