import WordVM.Proofs.Frame

/-!
# Stepping by hand

`Session.run` is the loop that a user writes who fetches and executes one instruction after the
other: it stops at a fault that is given or recorded, and at an outcome other than `next`. A run
looks at faults only before a step, so after a bad operand it takes one more step than the loop
takes turns, and that step changes nothing (`runFrom_succ_cases`, `exec_of_runFrom`).

`run_agrees_with_exec` says that from a machine that is ready for a fetch the loop and the run stop
together and leave the same session behind.
-/

namespace WordVM

/-- The next step of a run begins with a fetch. -/
def Machine.Ready (m : Machine) : Prop := m.stopped = false ∧ m.pending = none

namespace Session

variable {σ : Type} [Host σ]

/-- What a run answers whose instructions were stepped by hand up to some stop. -/
def Stop.answer : Stop → Outcome
  | .limit => .next
  | .outcome .needInput => .needInput
  | .outcome _ | .fault _ => .exit

theorem advance_of_ready {s : Session σ} (h : s.machine.Ready) : s.advance = s.runOne := by
  obtain ⟨hstopped, hpending⟩ := h
  simp only [advance, hstopped, Bool.false_eq_true, if_false, Machine.resume?, hpending]

theorem advance_of_stopped {s : Session σ} (h : s.machine.stopped = true) :
    s.advance = (.exit, s) :=
  if_pos h

/-- A run that is over stays as it is. -/
theorem execTraced_of_stopped {τ : Type} {s : Session σ} (h : s.machine.stopped = true)
    (tracer : Tracer τ) (limit : Nat) (t : τ) :
    execTraced tracer (limit + 1) s t = (.exit, s, t) := by
  have hstep : s.step tracer t = (.exit, s, t) := if_pos h
  rw [execTraced, hstep]

theorem exec_of_stopped {s : Session σ} (h : s.machine.stopped = true) (limit : Nat) :
    s.exec (limit + 1) = (.exit, s) := by
  rw [exec, execTraced_of_stopped h]

/-- After the end of a run a history only collects input. The host hears of nothing but events. -/
theorem replay_of_stopped {s : Session σ} (h : s.machine.stopped = true) (actions : List Action) :
    (∀ outcome ∈ (s.replay actions).1, outcome = .exit) ∧
      (s.replay actions).2.machine =
        { s.machine with input := s.machine.input ++ arrivals actions } ∧
      ∀ P : σ → Prop, (∀ host event, P host → P (Host.log host event)) → P s.host →
        P (s.replay actions).2.host := by
  induction actions generalizing s with
  | nil => simp [arrivals]
  | cons action rest ih =>
    cases action with
    | send text =>
      obtain ⟨houtcomes, hmachine, hhost⟩ := ih (s := s.sendInput text) h
      refine ⟨houtcomes, ?_, fun P hlog hs => hhost P hlog (hlog _ _ hs)⟩
      rw [replay_send, hmachine]
      simp only [sendInput, Machine.receive, arrivals, List.append_assoc]
    | step =>
      obtain ⟨houtcomes, hmachine, hhost⟩ := ih h
      simp only [replay_step, advance_of_stopped h]
      exact ⟨List.forall_mem_cons.mpr ⟨rfl, houtcomes⟩, hmachine, hhost⟩

/-- A fetch records nothing but faults, so it leaves no halt behind and nothing that waits. -/
theorem fetch_idle {s : Session σ} (h : s.machine.Ready) :
    s.fetch.2.machine.halted = false ∧ s.fetch.2.machine.pending = none := by
  obtain ⟨hstopped, hpending⟩ := h
  rw [fetch_machine, Machine.fetch_halted, Machine.fetch_pending, hpending]
  exact ⟨(Machine.stopped_eq_false_iff.mp hstopped).1, rfl⟩

/-- An instruction after which the next one can follow has not halted the machine and has not made
it wait. -/
theorem execute_idle {s s' : Session σ} {i : Instruction}
    (h : s.machine.halted = false ∧ s.machine.pending = none)
    (hexecute : s.execute i = (.ok .next, s')) :
    s'.machine.halted = false ∧ s'.machine.pending = none := by
  obtain ⟨hhalted, hpending⟩ := h
  rcases hperform : s.machine.perform i with ⟨m, effect⟩
  have hhalted' := s.machine.perform_halted i
  rw [hperform, hhalted] at hhalted'
  -- Of the four things that can happen only one has this outcome.
  obtain ⟨host, ⟨-, f, h⟩ | ⟨heffect, h⟩ | ⟨-, h⟩ | ⟨-, h⟩⟩ := execute_of_perform hperform <;>
    rw [hexecute] at h <;> cases h
  refine ⟨?_, ?_⟩
  · rcases heffect with rfl | ⟨c, rfl⟩ <;> simpa using hhalted'
  · obtain ⟨-, hsame⟩ | ⟨_, _, -, -, -, hawait⟩ := Machine.perform_cases hperform
    · exact hsame.trans hpending
    · rcases heffect with rfl | ⟨c, rfl⟩ <;> cases hawait

/-- A turn of the loop is a step of a run. Either both go on, or a fault recorded beside the
instruction stops the loop and will stop the run, or both stop. -/
theorem runFrom_succ_cases {s : Session σ} (h : s.machine.Ready) (ran limit : Nat) :
    ∃ s', (s.runOne = (.next, s') ∧ s'.machine.Ready ∧
        s.runFrom ran (limit + 1) = s'.runFrom (ran + 1) limit) ∨
      (s.runOne = (.next, s') ∧ s'.machine.stopped = true ∧
        s.runFrom ran (limit + 1) = ((.outcome .next, ran + 1), s')) ∨
      ∃ stop count, stop.answer ≠ .next ∧ s.runOne = (stop.answer, s') ∧
        s.runFrom ran (limit + 1) = ((stop, count), s') := by
  have hidle := fetch_idle h
  rw [runOne, runFrom]
  rcases hfetch : s.fetch with ⟨f | i, s₁⟩
  · exact ⟨s₁, .inr (.inr ⟨.fault f, ran, by simp [Stop.answer], rfl, rfl⟩)⟩
  rw [hfetch] at hidle
  dsimp only
  rcases hexecute : s₁.execute i with ⟨f | _ | _ | _, s'⟩
  · exact ⟨s', .inr (.inr ⟨.fault f, ran + 1, by simp [Stop.answer], rfl, rfl⟩)⟩
  · obtain ⟨hhalted, hpending⟩ := execute_idle hidle hexecute
    dsimp only
    cases hfault : s'.machine.fault with
    | none =>
      exact ⟨s', .inl ⟨rfl, ⟨Machine.stopped_eq_false_iff.mpr ⟨hhalted, hfault⟩, hpending⟩,
        if_pos rfl⟩⟩
    | some f =>
      exact ⟨s', .inr (.inl ⟨rfl, by simp [Machine.stopped, hfault], if_neg (by simp)⟩)⟩
  · exact ⟨s', .inr (.inr ⟨.outcome .needInput, ran + 1, by simp [Stop.answer], rfl, rfl⟩)⟩
  · exact ⟨s', .inr (.inr ⟨.outcome .exit, ran + 1, by simp [Stop.answer], rfl, rfl⟩)⟩

/-- As long as the loop goes on so does the run, and one step after the loop has stopped so has
the run. -/
theorem exec_of_runFrom {s : Session σ} (h : s.machine.Ready) (ran limit : Nat) :
    ((s.runFrom ran limit).1.1 = .limit → s.exec limit = (.next, (s.runFrom ran limit).2)) ∧
      ((s.runFrom ran limit).1.1 ≠ .limit →
        s.exec (limit + 1) = ((s.runFrom ran limit).1.1.answer, (s.runFrom ran limit).2)) := by
  induction limit generalizing s ran with
  | zero => exact ⟨fun _ => rfl, fun hstop => absurd rfl hstop⟩
  | succ limit ih =>
    obtain ⟨s', hturn⟩ := runFrom_succ_cases h ran limit
    rcases hturn with ⟨hone, hready, hrest⟩ | ⟨hone, hstopped, hrest⟩ |
      ⟨stop, count, hstop, hone, hrest⟩
    · rw [exec_succ, exec_succ, advance_of_ready h, hone, hrest]
      exact ih hready (ran + 1)
    · rw [exec_succ, exec_succ, advance_of_ready h, hone, hrest]
      constructor
      · intro hlimit
        cases hlimit
      · -- The run takes note of the fault in the step that the loop does not take.
        intro _
        exact exec_of_stopped hstopped limit
    · rw [hrest, exec_succ, exec_succ, advance_of_ready h, hone]
      constructor
      · intro hlimit
        exact absurd (congrArg Stop.answer hlimit) hstop
      · intro _
        cases hanswer : stop.answer with
        | next => exact absurd hanswer hstop
        | needInput | exit => rfl

/-- Two limits that a run does not reach give the same end. -/
theorem exec_unique {s : Session σ} {limit limit' : Nat} (h : (s.exec limit).1 ≠ .next)
    (h' : (s.exec limit').1 ≠ .next) : s.exec limit = s.exec limit' := by
  rw [← exec_add h limit', ← exec_add h' limit, Nat.add_comm]

/-- Stepping by hand from a machine that is ready for a fetch stops exactly if a run stops. Both
then leave the same machine on the same host, and the run has come to wait for input exactly if
the instruction executed last by hand has. -/
theorem run_agrees_with_exec {s : Session σ} (hstopped : s.machine.stopped = false)
    (hpending : s.machine.pending = none) :
    ((∃ limit, (s.run limit).1.1 ≠ .limit) ↔ ∃ limit, (s.exec limit).1 ≠ .next) ∧
      ∀ limit limit', (s.run limit).1.1 ≠ .limit → (s.exec limit').1 ≠ .next →
        (s.exec limit').2 = (s.run limit).2 ∧
          (s.exec limit').1 =
            if (s.run limit).1.1 = .outcome .needInput then .needInput else .exit := by
  have hrun (limit : Nat) : ((s.run limit).1.1 = .limit → s.exec limit = (.next, (s.run limit).2)) ∧
      ((s.run limit).1.1 ≠ .limit →
        s.exec (limit + 1) = ((s.run limit).1.1.answer, (s.run limit).2)) :=
    exec_of_runFrom ⟨hstopped, hpending⟩ 0 limit
  have hanswer {stop : Stop} (h : stop ≠ .limit) :
      stop.answer = if stop = .outcome .needInput then .needInput else .exit := by
    rcases stop with _ | f | _ | _ | _ <;> first | exact absurd rfl h | simp [Stop.answer]
  have hover {limit : Nat} (h : (s.run limit).1.1 ≠ .limit) : (s.exec (limit + 1)).1 ≠ .next := by
    rw [(hrun limit).2 h, hanswer h]
    split <;> simp
  refine ⟨⟨?_, ?_⟩, ?_⟩
  · intro hloop
    obtain ⟨limit, h⟩ := hloop
    exact ⟨limit + 1, hover h⟩
  · intro hexec
    obtain ⟨limit, h⟩ := hexec
    -- A loop that had not stopped by then would not have let the run stop.
    exact ⟨limit, fun hlimit => h (congrArg Prod.fst ((hrun limit).1 hlimit))⟩
  · intro limit limit' h h'
    rw [exec_unique h' (hover h), (hrun limit).2 h]
    exact ⟨rfl, hanswer h⟩

/-- The program pushes a bad operand. The loop stops after one turn, and the run takes a second
step. -/
theorem run_agrees_with_exec_badPush :
    let s := (fresh.load [2, 0, 64, 156, 0, 0]).2
    s.machine.stopped = false ∧ s.machine.pending = none ∧
      (s.run 9).1 = (.outcome .next, 1) ∧ (s.exec 1).1 = .next ∧ (s.exec 9).1 = .exit ∧
      (s.exec 9).2 = (s.run 9).2 := by
  intro s
  have hstopped : s.machine.stopped = false := by decide +kernel
  have hpending : s.machine.pending = none := by decide +kernel
  have hloop : (s.run 9).1 = (.outcome .next, 1) := by decide +kernel
  have hrun : (s.exec 9).1 = .exit := by decide +kernel
  obtain ⟨-, hsame⟩ := run_agrees_with_exec hstopped hpending
  obtain ⟨hsession, -⟩ := hsame 9 9 (by simp [hloop]) (by simp [hrun])
  exact ⟨hstopped, hpending, hloop, by decide +kernel, hrun, hsession⟩

end Session

end WordVM
