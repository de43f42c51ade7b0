import WordVM.Proofs.Stepping
import Mathlib.Data.List.Forall2

/-!
# Tracing

A tracer takes no part in a run. `Session.fetches` lists the sessions in which a run fetches, and
`Session.calls` the calls that a run makes to its tracer: `execTraced_eq_foldl` says that a run
under any tracer is the run without one, with these calls made to the tracer one after the other.

There is one call for each fetch, which tells what was found there (`Tracer.Describes`). A run goes
on only after an instruction without a bad operand word that was executed without a fault
(`Session.Succeeds`), so anything else is the matter of the last call. `execTraced_transparent` is
all of this together.
-/

namespace WordVM

/-! ## Calls -/

namespace Tracer

/-- A call that a tracer receives. -/
inductive Call
  /-- An instruction is about to be performed, with these registers and this stack. -/
  | instruction (i : Instruction) (registers : Registers) (stack : Stack)
  /-- The word at this byte offset names no opcode. -/
  | invalid (pc : Nat) (word : Word) (registers : Registers) (stack : Stack)

/-- What a tracer makes of a call. -/
def receive {τ : Type} (tracer : Tracer τ) (t : τ) : Call → τ
  | .instruction i registers stack => tracer.instruction t i registers stack
  | .invalid pc word registers stack => tracer.invalid t pc word registers stack

/-- A tracer that keeps all calls, in order. -/
def recorder : Tracer (List Call) where
  instruction calls i registers stack := calls ++ [.instruction i registers stack]
  invalid calls pc word registers stack := calls ++ [.invalid pc word registers stack]

theorem foldl_receive_recorder (calls more : List Call) :
    more.foldl recorder.receive calls = calls ++ more := by
  induction more generalizing calls with
  | nil => simp
  | cons call more ih =>
    rw [List.foldl_cons, ih]
    cases call <;> simp [receive, recorder]

/-- A call tells what a machine finds that fetches: an instruction that carries the offset it was
fetched from, and register operands with the contents that the registers have before it is
performed; or the word in memory that names no opcode. -/
inductive Describes (m : Machine) : Call → Prop
  | instruction {i : Instruction} {m' : Machine} (fetched : m.fetch = (.ok i, m'))
      (pc : i.pc = m.pc)
      (contents : ∀ index value, .register index value ∈ i.operands →
        value = m'.registers[index]) :
      Describes m (.instruction i m'.registers m'.stack)
  | invalid {word : Word} (fetched : m.fetch.1 = .error (.invalidOpcode word))
      (found : m.memory.read m.pc = .ok word) :
      Describes m (.invalid m.pc word m.registers m.stack)

/-- What is found in one place is told in one way only. -/
theorem Describes.rightUnique : Relator.RightUnique Describes := by
  intro m call call' h h'
  cases h with
  | instruction fetched pc contents =>
    cases h' with
    | instruction fetched' pc' contents' =>
      cases fetched.symm.trans fetched'
      rfl
    | invalid fetched' found' =>
      rw [fetched] at fetched'
      cases fetched'
  | invalid fetched found =>
    cases h' with
    | instruction fetched' pc' contents' =>
      rw [fetched'] at fetched
      cases fetched
    | invalid fetched' found' =>
      cases fetched.symm.trans fetched'
      rfl

end Tracer

/-! ## What a fetch finds -/

theorem Operand.value_of_decode {registers : Registers} {raw : Word} {index : Fin registerCount}
    {value : Word} (h : decode registers raw = .ok (.register index value)) :
    value = registers.get index := by
  unfold decode at h
  dsimp only at h
  split at h
  · split at h
    · simp only [Except.ok.injEq, Operand.register.injEq] at h
      obtain ⟨rfl, rfl⟩ := h
      rfl
    · cases h
  · cases h

/-- A register operand carries the content of its register. -/
theorem Instruction.value_of_mem_decode {memory : Memory} {registers : Registers} {pc : Nat}
    {h : pc < programCeiling} {op : Opcode} {index : Fin registerCount} {value : Word}
    (hmem : .register index value ∈ (decode memory registers pc h op).operands) :
    value = registers[index] := by
  obtain ⟨raw, -, hraw⟩ := Vector.mem_map.mp hmem
  split at hraw
  · next hdecode =>
    subst hraw
    exact Operand.value_of_decode hdecode
  · cases hraw

/-- No fault is caused by operand words exactly if each of them names a value or a register. -/
theorem Instruction.operandFault?_eq_none_iff {memory : Memory} {registers : Registers} {pc : Nat}
    (h : pc < programCeiling) (op : Opcode) :
    operandFault? memory registers pc h op = none ↔
      ∀ k < op.arity, ∃ word, memory.read (pc + 2 * (k + 1)) = .ok word ∧ word.toNat < 32776 := by
  rw [operandFault?_eq_findSome?, List.findSome?_eq_none_iff]
  simp only [Operand.wordFault?, ite_eq_right_iff, reduceCtorEq, imp_false, Nat.not_le]
  constructor
  · intro hgood k hk
    have hmem : (operandWords memory pc h op)[k] ∈ (operandWords memory pc h op).toList :=
      Vector.mem_toList_iff.mpr (Vector.getElem_mem hk)
    exact ⟨_, read_operandWords memory h hk, hgood _ hmem⟩
  · intro hgood word hword
    obtain ⟨k, hk, rfl⟩ := Vector.mem_iff_getElem.mp (Vector.mem_toList_iff.mp hword)
    obtain ⟨word', hread, hlt⟩ := hgood k hk
    cases (read_operandWords memory h hk).symm.trans hread
    exact hlt

namespace Session

variable {σ : Type} [Host σ]

/-! ## Fetches of a run -/

/-- The session in which the next step of a run fetches, if it fetches at all. -/
def fetchPoint? (s : Session σ) : Option (Session σ) :=
  if s.machine.stopped then none else s.machine.resume?.map fun machine => ⟨machine, s.host⟩

omit [Host σ] in
theorem fetchPoint?_eq_some_iff {s point : Session σ} : s.fetchPoint? = some point ↔
    s.machine.stopped = false ∧ s.machine.resume? = some point.machine ∧ point.host = s.host := by
  obtain ⟨m, host⟩ := point
  unfold fetchPoint?
  split
  · next hstopped => simp [hstopped]
  · next hrunning =>
    rw [Bool.not_eq_true] at hrunning
    cases s.machine.resume? <;> simp [hrunning, eq_comm]

/-- The sessions in which a run of at most `limit` steps fetches, in order. -/
def fetches : (limit : Nat) → Session σ → List (Session σ)
  | 0, _ => []
  | limit + 1, s =>
    s.fetchPoint?.toList ++
      match s.advance with
      | (.next, s) => fetches limit s
      | _ => []

/-- The calls that a run of at most `limit` steps makes to its tracer, in order. -/
def calls (limit : Nat) (s : Session σ) : List Tracer.Call :=
  (execTraced .recorder limit s []).2.2

/-- A fetch in this session gives an instruction all of whose operand words are good, and its
execution asks for the next one. -/
def Succeeds (s : Session σ) : Prop :=
  ∃ i s₁ s₂, s.fetch = (.ok i, s₁) ∧
    (∀ k < i.opcode.arity, ∃ word, s.machine.memory.read (s.machine.pc + 2 * (k + 1)) = .ok word ∧
      word.toNat < 32776) ∧
    s₁.execute i = (.ok .next, s₂)

/-- A step fetches and executes at its fetch point, or else it is the last one. -/
theorem fetchPoint?_cases (s : Session σ) :
    (s.fetchPoint? = none ∧ s.advance.1 ≠ .next) ∨
      ∃ point, s.fetchPoint? = some point ∧ s.advance = point.runOne := by
  unfold fetchPoint? advance
  split
  · exact .inl ⟨rfl, by simp⟩
  · cases s.machine.resume? with
    | some machine => exact .inr ⟨_, rfl, rfl⟩
    | none =>
      refine .inl ⟨rfl, ?_⟩
      obtain ⟨_, hawait⟩ | ⟨_, _, hawait⟩ := s.awaitInput_cases <;> simp [hawait]

theorem fetches_succ (s : Session σ) (limit : Nat) :
    s.fetches (limit + 1) = s.fetchPoint?.toList ++
      if s.advance.1 = .next then s.advance.2.fetches limit else [] := by
  rw [fetches]
  rcases s.advance with ⟨_ | _ | _, s'⟩ <;> rfl

/-- The first step of a run ends it, or else it has fetched and the run goes on from there. -/
theorem run_succ_cases (s : Session σ) (limit : Nat) :
    ((s.exec (limit + 1)).1 ≠ .next ∧ s.fetches (limit + 1) = s.fetchPoint?.toList) ∨
      ∃ point s', s.fetchPoint? = some point ∧ point.runOne = (.next, s') ∧
        s.exec (limit + 1) = s'.exec limit ∧ s.fetches (limit + 1) = point :: s'.fetches limit := by
  rw [exec_succ, fetches_succ]
  obtain ⟨hpoint, hlast⟩ | ⟨point, hpoint, hadvance⟩ := s.fetchPoint?_cases
  · left
    rw [if_neg hlast, List.append_nil]
    cases hresult : s.advance with | mk outcome s' =>
    rw [hresult] at hlast
    cases outcome with
    | next => exact absurd rfl hlast
    | needInput => exact ⟨hlast, rfl⟩
    | exit => exact ⟨hlast, rfl⟩
  · cases hresult : s.advance with | mk outcome s' =>
    cases outcome with
    | next => exact .inr ⟨point, s', hpoint, hadvance.symm.trans hresult, rfl, by rw [hpoint]; rfl⟩
    | needInput => exact .inl ⟨nofun, by rw [hpoint]; rfl⟩
    | exit => exact .inl ⟨nofun, by rw [hpoint]; rfl⟩

/-- A run that has ended within a limit fetches no more within a higher one. -/
theorem fetches_add {s : Session σ} {limit : Nat} (h : (s.exec limit).1 ≠ .next) (k : Nat) :
    s.fetches (limit + k) = s.fetches limit := by
  induction limit generalizing s with
  | zero => exact absurd rfl h
  | succ limit ih =>
    rw [show limit + 1 + k = limit + k + 1 by omega, fetches_succ, fetches_succ]
    rw [exec_succ] at h
    cases hresult : s.advance with | mk outcome s' =>
    rw [hresult] at h
    cases outcome with
    | next => rw [if_pos rfl, if_pos rfl, ih h]
    | needInput => rfl
    | exit => rfl

/-- A run that is over fetches no more. -/
theorem running_of_fetches_ne_nil {s : Session σ} {limit : Nat} (h : s.fetches limit ≠ []) :
    s.machine.stopped = false := by
  rw [← Bool.not_eq_true]
  intro hstopped
  apply h
  cases limit with
  | zero => rfl
  | succ limit => simp [fetches, fetchPoint?, hstopped, advance_of_stopped]

/-- An execution that asks for the next instruction records no fault. -/
theorem fault_of_execute {s s' : Session σ} {i : Instruction} (h : s.execute i = (.ok .next, s')) :
    s'.machine.fault = s.machine.fault := by
  rcases hperform : s.machine.perform i with ⟨m, effect⟩
  have hfault := s.machine.perform_fault i
  obtain ⟨host, ⟨-, f, h'⟩ | ⟨-, h'⟩ | ⟨-, h'⟩ | ⟨-, h'⟩⟩ := execute_of_perform hperform <;>
    rw [h] at h' <;> cases h'
  rw [hperform] at hfault
  exact hfault

/-- A run that can go on has executed a good instruction. -/
theorem succeeds_of_runOne {s s' : Session σ} (h : s.runOne = (.next, s'))
    (hrunning : s'.machine.stopped = false) : s.Succeeds := by
  unfold runOne at h
  rcases hfetch : s.fetch with ⟨f | i, s₁⟩ <;> rw [hfetch] at h
  · cases h
  dsimp only at h
  rcases hexecute : s₁.execute i with ⟨f | outcome, s₂⟩ <;> rw [hexecute] at h <;> cases h
  refine ⟨i, s₁, s', hfetch, ?_, hexecute⟩
  -- What the run has not recorded by now was not there to be recorded by the fetch.
  have hnone : s₁.machine.fault = none :=
    (fault_of_execute hexecute).symm.trans (Machine.stopped_eq_false_iff.mp hrunning).2
  have hplain := machine_fetch_eq hfetch
  obtain ⟨-, h⟩ | ⟨_, -, -, -, h⟩ | ⟨op, hpc, -, h⟩ := s.machine.fetch_cases <;>
    rw [h, Prod.mk.injEq] at hplain <;> obtain ⟨hi, hmachine⟩ := hplain <;> cases hi
  · exact fun k hk => absurd hk (Nat.not_lt_zero k)
  · rw [← hmachine, Option.or_eq_none_iff] at hnone
    exact (Instruction.operandFault?_eq_none_iff hpc op).mp hnone.2

/-- Only the last fetch of a run can be other than successful. -/
theorem succeeds_of_mem_dropLast {s point : Session σ} {limit : Nat}
    (h : point ∈ (s.fetches limit).dropLast) : point.Succeeds := by
  induction limit generalizing s with
  | zero => simp [fetches] at h
  | succ limit ih =>
    obtain ⟨-, hlast⟩ | ⟨first, s', -, hone, -, hcons⟩ := s.run_succ_cases limit
    · rw [hlast] at h
      cases hpoint : s.fetchPoint? <;> simp [hpoint] at h
    · rw [hcons] at h
      by_cases hrest : s'.fetches limit = []
      · simp [hrest] at h
      · rw [List.dropLast_cons_of_ne_nil hrest, List.mem_cons] at h
        rcases h with rfl | h
        · exact succeeds_of_runOne hone (running_of_fetches_ne_nil hrest)
        · exact ih h

/-! ## Calls of a run -/

/-- A cycle makes one call, the same to every tracer, which tells what its fetch finds. -/
theorem exists_call (s : Session σ) :
    ∃ call, Tracer.Describes s.machine call ∧
      ∀ {τ : Type} (tracer : Tracer τ) (t : τ),
        s.cycle tracer t = (s.runOne.1, s.runOne.2, tracer.receive t call) := by
  rcases hfetch : s.fetch with ⟨f | i, s₁⟩ <;> have hplain := machine_fetch_eq hfetch
  · obtain ⟨-, h⟩ | ⟨word, -, hread, -, h⟩ | ⟨op, hpc, -, h⟩ := s.machine.fetch_cases <;>
      rw [h, Prod.mk.injEq] at hplain <;> obtain ⟨hi, hmachine⟩ := hplain <;> cases hi
    · refine ⟨.invalid s.machine.pc word s.machine.registers s.machine.stack,
        .invalid (congrArg Prod.fst h) hread, fun tracer t => ?_⟩
      -- The fetch has moved past the word, and the call leads back to it.
      have hpc : s₁.machine.pc - 2 = s.machine.pc := by
        rw [← hmachine]
        exact Nat.add_sub_cancel ..
      have hregisters : s₁.machine.registers = s.machine.registers := by rw [← hmachine]; rfl
      have hstack : s₁.machine.stack = s.machine.stack := by rw [← hmachine]; rfl
      simp only [cycle, runOne, hfetch, hpc, hregisters, hstack]
      rfl
  · refine ⟨.instruction i s₁.machine.registers s₁.machine.stack, ?_, fun tracer t => ?_⟩
    · obtain ⟨-, h⟩ | ⟨_, -, -, -, h⟩ | ⟨op, hpc, -, h⟩ := s.machine.fetch_cases <;>
        rw [h, Prod.mk.injEq] at hplain <;> obtain ⟨hi, hm⟩ := hplain <;> cases hi
      · exact .instruction (h.trans (Prod.ext rfl hm)) rfl
          fun _ _ hmem => absurd hmem (Vector.not_mem_empty _)
      · refine .instruction (h.trans (Prod.ext rfl hm)) rfl fun index value hmem => ?_
        rw [← hm]
        exact Instruction.value_of_mem_decode hmem
    · simp only [cycle, runOne, hfetch, executeSeen]
      rcases s₁.execute i with ⟨_ | _, s₂⟩ <;> rfl

/-- A step makes the call of its fetch, or none if it does not fetch. -/
theorem step_eq (s : Session σ) :
    (s.fetchPoint? = none ∧
      ∀ {τ : Type} (tracer : Tracer τ) (t : τ), s.step tracer t = (s.advance.1, s.advance.2, t)) ∨
    ∃ point call, s.fetchPoint? = some point ∧ Tracer.Describes point.machine call ∧
      ∀ {τ : Type} (tracer : Tracer τ) (t : τ),
        s.step tracer t = (s.advance.1, s.advance.2, tracer.receive t call) := by
  unfold fetchPoint? step advance Machine.resume?
  split
  · exact .inl ⟨rfl, fun _ _ => rfl⟩
  · cases s.machine.pending with
    | none =>
      obtain ⟨call, hcall, hcycle⟩ := s.exists_call
      exact .inr ⟨s, call, rfl, hcall, hcycle⟩
    | some dest =>
      cases s.machine.takeInput? with
      | some taken =>
        obtain ⟨call, hcall, hcycle⟩ := exists_call
          ⟨{ taken.2 with pending := none }.store dest taken.1, s.host⟩
        exact .inr ⟨_, call, rfl, hcall, hcycle⟩
      | none =>
        refine .inl ⟨rfl, fun _ _ => ?_⟩
        rcases s.awaitInput with ⟨_ | _, s'⟩ <;> rfl

theorem execTraced_succ {τ : Type} {tracer : Tracer τ} {s : Session σ} {t t' : τ}
    (h : s.step tracer t = (s.advance.1, s.advance.2, t')) (limit : Nat) :
    execTraced tracer (limit + 1) s t =
      if s.advance.1 = .next then execTraced tracer limit s.advance.2 t'
      else (s.advance.1, s.advance.2, t') := by
  rw [execTraced, h]
  rcases s.advance with ⟨_ | _ | _, s'⟩ <;> rfl

/-- A run makes one call for each fetch, the same to every tracer, and does nothing else with
it. -/
theorem exists_calls (s : Session σ) (limit : Nat) :
    ∃ calls, List.Forall₂ (fun point call => Tracer.Describes point.machine call)
        (s.fetches limit) calls ∧
      ∀ {τ : Type} (tracer : Tracer τ) (t : τ), execTraced tracer limit s t =
        ((s.exec limit).1, (s.exec limit).2, calls.foldl tracer.receive t) := by
  induction limit generalizing s with
  | zero => exact ⟨[], .nil, fun _ _ => rfl⟩
  | succ limit ih =>
    -- The calls of the remaining run, if there is one.
    obtain ⟨rest, hrest, hrun⟩ : ∃ rest, List.Forall₂
        (fun point call => Tracer.Describes point.machine call)
        (if s.advance.1 = .next then s.advance.2.fetches limit else []) rest ∧
        ∀ {τ : Type} (tracer : Tracer τ) (t : τ),
          (if s.advance.1 = .next then execTraced tracer limit s.advance.2 t
            else (s.advance.1, s.advance.2, t)) =
          ((s.exec (limit + 1)).1, (s.exec (limit + 1)).2, rest.foldl tracer.receive t) := by
      simp only [exec_succ]
      rcases s.advance with ⟨_ | _ | _, s'⟩
      · exact ih s'
      · exact ⟨[], .nil, fun _ _ => rfl⟩
      · exact ⟨[], .nil, fun _ _ => rfl⟩
    rw [fetches_succ]
    obtain ⟨hpoint, hstep⟩ | ⟨point, call, hpoint, hcall, hstep⟩ := s.step_eq <;> rw [hpoint]
    · refine ⟨rest, hrest, fun tracer t => ?_⟩
      rw [execTraced_succ (hstep tracer t), hrun]
    · refine ⟨call :: rest, .cons hcall hrest, fun tracer t => ?_⟩
      rw [execTraced_succ (hstep tracer t), hrun, List.foldl_cons]

/-- A run under a tracer is the run without one, with the calls made one after the other. -/
theorem execTraced_eq_foldl {τ : Type} (tracer : Tracer τ) (s : Session σ) (limit : Nat) (t : τ) :
    execTraced tracer limit s t =
      ((s.exec limit).1, (s.exec limit).2, (s.calls limit).foldl tracer.receive t) := by
  obtain ⟨calls, -, hcalls⟩ := s.exists_calls limit
  rw [Session.calls, hcalls, hcalls, Tracer.foldl_receive_recorder, List.nil_append]

theorem describes_calls (s : Session σ) (limit : Nat) :
    List.Forall₂ (fun point call => Tracer.Describes point.machine call)
      (s.fetches limit) (s.calls limit) := by
  obtain ⟨calls, hdescribes, hcalls⟩ := s.exists_calls limit
  rw [Session.calls, hcalls, Tracer.foldl_receive_recorder, List.nil_append]
  exact hdescribes

/-- A fetch that gives an instruction is told of by a call for one. -/
theorem Succeeds.call_eq {s : Session σ} {call : Tracer.Call} (h : s.Succeeds)
    (hcall : Tracer.Describes s.machine call) :
    ∃ i registers stack, call = .instruction i registers stack := by
  obtain ⟨i, s₁, s₂, hfetch, -, -⟩ := h
  cases hcall with
  | instruction => exact ⟨_, _, _, rfl⟩
  | invalid fetched _ =>
    rw [← fetch_fst, hfetch] at fetched
    cases fetched

/-- Tracing is transparent and complete. Within every limit, a run under a tracer has the outcome
and the session of the run without one, and its tracer receives the calls of the run: one for
each fetch, in order, which tells what is found there. All of these but the last are calls for an
instruction without a bad operand word, whose execution succeeds. -/
theorem execTraced_transparent (s : Session σ) (limit : Nat) :
    (∀ {τ : Type} (tracer : Tracer τ) (t : τ), execTraced tracer limit s t =
        ((s.exec limit).1, (s.exec limit).2, (s.calls limit).foldl tracer.receive t)) ∧
      List.Forall₂ (fun point call => Tracer.Describes point.machine call)
        (s.fetches limit) (s.calls limit) ∧
      (∀ point ∈ (s.fetches limit).dropLast, point.Succeeds) ∧
      ∀ call ∈ (s.calls limit).dropLast, ∃ i registers stack,
        call = .instruction i registers stack := by
  have hcalls := s.describes_calls limit
  refine ⟨fun tracer t => execTraced_eq_foldl tracer s limit t, hcalls,
    fun _ => succeeds_of_mem_dropLast, fun call hmem => ?_⟩
  -- Each call but the last one belongs to a fetch other than the last one.
  obtain ⟨k, hk, rfl⟩ := List.mem_iff_getElem.mp hmem
  have hlength := hcalls.length_eq
  rw [List.length_dropLast] at hk
  have hpoint : (s.fetches limit)[k] ∈ (s.fetches limit).dropLast := by
    rw [← List.getElem_dropLast (by rw [List.length_dropLast]; omega)]
    exact List.getElem_mem _
  rw [List.getElem_dropLast]
  exact (succeeds_of_mem_dropLast hpoint).call_eq (hcalls.get (by omega) (by omega))

end Session

end WordVM
