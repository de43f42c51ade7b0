import WordVM.Proofs.Erasure
import WordVM.Proofs.ProgramCounter

/-!
# Safety

A checked session does not trap. Whatever a session does, the checked session does on plain lists: a
fetch (`Session.fetch_erase`), an execution (`Session.execute_erase`), a run, with a tracer or
without (`Session.exec_erase`), and a history (`Usage.replay_erase`). An execution needs a program
counter that is the offset of a word address, and so it is in all of them, by `Machine.Placed`.
`replay_never_traps` puts this together.
-/

namespace WordVM

/-! ## Sessions -/

namespace Tracer

/-- The call, with its instruction and its registers as lists. -/
def Call.erase : Call → Checked.Call
  | instruction i registers stack => .instruction i.erase registers.toList stack
  | invalid pc word registers stack => .invalid pc word registers.toList stack

theorem Call.instruction?_erase (call : Call) :
    call.erase.instruction? = call.instruction?.map Instruction.erase := by
  cases call <;> rfl

/-- What a view shows of the states of a tracer is the calls that it has received, or always
nothing. -/
structure Keeps {τ : Type} (tracer : Tracer τ) (view : τ → Option (List Checked.Call)) : Prop where
  instruction : ∀ t i registers stack, view (tracer.instruction t i registers stack) =
    (view t).map (· ++ [.instruction i.erase registers.toList stack])
  invalid : ∀ t pc word registers stack, view (tracer.invalid t pc word registers stack) =
    (view t).map (· ++ [.invalid pc word registers.toList stack])

theorem keeps_silent {τ : Type} : (silent : Tracer τ).Keeps fun _ => none :=
  ⟨fun _ _ _ _ => rfl, fun _ _ _ _ _ => rfl⟩

theorem keeps_recorder : recorder.Keeps fun calls => some (calls.map Call.erase) := by
  constructor <;> intros <;> simp [recorder, Call.erase]

end Tracer

namespace Session

variable {σ τ : Type}

/-- The session, with its machine on lists. -/
def erase (s : Session σ) : Checked.Session σ := ⟨s.machine.erase, s.host⟩

variable [Host σ] (s : Session σ)

theorem load_erase (image : List UInt8) : s.erase.load image = (s.load image).2.erase := by
  unfold Checked.Session.load load
  split
  · next fits =>
    have hbytes : (Memory.ofImage image fits).bytes.toList =
        image ++ List.replicate (Memory.size - image.length) 0 := by
      simp [Memory.ofImage, Vector.toList]
    rw [← hbytes, ← Machine.boot_erase]
    rfl
  · rfl

theorem fail_erase (f : Fault) : s.erase.fail f = (s.fail f).erase := by
  unfold Checked.Session.fail fail
  rw [show s.erase.machine.fault = s.machine.fault from rfl]
  cases s.machine.fault <;> rfl

theorem awaitInput_erase : s.erase.awaitInput = (s.awaitInput.1, s.awaitInput.2.erase) := by
  unfold Checked.Session.awaitInput awaitInput
  rw [show s.erase.host = s.host from rfl]
  rcases Host.flush s.host with ⟨reason | _, host⟩
  · exact Prod.ext rfl (fail_erase ⟨s.machine, host⟩ _)
  · rfl

theorem execute_erase (i : Instruction) (h : s.machine.pc ≤ 131070) :
    s.erase.execute i.erase = .ok ((s.execute i).1, (s.execute i).2.erase) := by
  have hperform : s.erase.machine.perform i.erase = _ := s.machine.perform_erase i h
  rw [Checked.Session.execute, hperform, Checked.ok_bind, execute]
  -- From here on there is nothing to check: both do the same on the host.
  rcases s.machine.perform i with ⟨m, _ | _ | f | c | _⟩
  case next | exit => rfl
  case fault => exact congrArg Except.ok (Prod.ext rfl (fail_erase ⟨m, s.host⟩ f))
  case await => exact congrArg Except.ok (awaitInput_erase ⟨m, s.host⟩)
  case emit =>
    simp only [show s.erase.host = s.host from rfl]
    rcases Host.writeAll s.host (String.utf8EncodeChar c) with ⟨reason | _, host⟩
    · exact congrArg Except.ok (Prod.ext rfl (fail_erase ⟨m, host⟩ _))
    · rfl

theorem fetch_erase :
    s.erase.fetch = .ok (s.fetch.1.map Instruction.erase, s.fetch.2.erase) := by
  obtain ⟨m, host⟩ := s
  simp only [Checked.Session.fetch, erase, show m.erase.pc = m.pc from rfl]
  by_cases h : m.pc < programCeiling
  · have hread : Checked.readWord m.erase.memory m.pc = _ := Checked.readWord_eq m.memory h
    simp only [if_pos h, hread, Checked.ok_bind]
    -- `peek` is where the machine itself looks at the word.
    cases hop : Opcode.ofCode? (m.memory.word m.pc (word_in_bounds h)) with
    | none =>
      have hpeek : m.peek = .invalid (m.memory.word m.pc (word_in_bounds h)) := by
        simp only [Machine.peek, dif_pos h, hop]
      simp only [fetch, hpeek, Checked.addOffset_eq h (by decide : 2 ≤ 8), Checked.ok_bind]
      exact congrArg Except.ok (Prod.ext rfl (fail_erase ⟨{ m with pc := m.pc + 2 }, host⟩ _))
    | some op =>
      have hpeek : m.peek = .instruction (.decode m.memory m.registers m.pc h op)
          (Instruction.operandFault? m.memory m.registers m.pc h op) := by
        simp only [Machine.peek, dif_pos h, hop]
      have hwidth : op.width ≤ 8 := by
        have := op.arity_le
        rw [Opcode.width]
        omega
      have hdecode : Checked.decodeOperands m.erase.memory m.erase.registers m.pc op.arity [] none =
          _ := Checked.decodeOperands_erase m.memory m.registers h op
      simp only [fetch, hpeek, Checked.width_eq, Checked.addOffset_eq h hwidth, hdecode,
        Checked.ok_bind]
      cases Instruction.operandFault? m.memory m.registers m.pc h op with
      | none => rfl
      | some f =>
        exact congrArg Except.ok (Prod.ext rfl
          (fail_erase ⟨{ m with pc := m.pc + op.width }, Host.log host _⟩ f))
  · have hpeek : m.peek = .pastCeiling := dif_neg h
    simp only [if_neg h, fetch, hpeek]
    rfl

/-! ## Runs -/

/-- The fetch of a word that names no opcode has moved past it. -/
theorem two_le_pc_of_fetch {s' : Session σ} {f : Fault} (h : s.fetch = (.error f, s')) :
    2 ≤ s'.machine.pc := by
  have hfetch := machine_fetch_eq h
  obtain ⟨-, h'⟩ | ⟨_, -, -, -, h'⟩ | ⟨op, _, -, h'⟩ := s.machine.fetch_cases <;>
    rw [h', Prod.mk.injEq] at hfetch <;> obtain ⟨hfst, hmachine⟩ := hfetch
  · cases hfst
  · rw [← hmachine]
    exact Nat.le_add_left ..
  · cases hfst

section

variable {tracer : Tracer τ} {view : τ → Option (List Checked.Call)} (hview : tracer.Keeps view)
include hview

theorem cycle_erase (t : τ) (h : s.machine.Placed) :
    s.erase.cycle (view t) = .ok ((s.cycle tracer t).1, (s.cycle tracer t).2.1.erase,
      view (s.cycle tracer t).2.2) := by
  have hfetched := placed_invariant.fetch h
  rw [Checked.Session.cycle, fetch_erase, Checked.ok_bind, cycle]
  rcases hfetch : s.fetch with ⟨f | i, s₁⟩ <;> rw [hfetch] at hfetched
  · cases f with
    | invalidOpcode word =>
      -- Only a tracer wants to know where the word lies.
      have hsub : Checked.subOffset s₁.erase.machine.pc 2 = .ok (s₁.machine.pc - 2) :=
        if_pos (s.two_le_pc_of_fetch hfetch)
      simp only [Except.map, hview.invalid, hsub]
      cases view t <;> rfl
    | _ => rfl
  · have hexecute := s₁.execute_erase i hfetched.le
    simp only [Except.map, executeSeen, hexecute, Checked.ok_bind]
    rcases s₁.execute i with ⟨_ | _, s₂⟩
    · simp only [hview.instruction]
      rfl
    · simp only [hview.instruction]
      rfl

theorem step_erase (t : τ) (h : s.machine.Placed) :
    s.erase.step (view t) = .ok ((s.step tracer t).1, (s.step tracer t).2.1.erase,
      view (s.step tracer t).2.2) := by
  rw [Checked.Session.step, step, show s.erase.machine.stopped = s.machine.stopped from rfl,
    show s.erase.machine.pending = s.machine.pending.map Operand.erase from rfl]
  split
  · rfl
  · cases hpending : s.machine.pending with
    | none => exact cycle_erase s hview t h
    | some dest =>
      -- The destination was decoded in an earlier step, and its register is still in its bounds.
      simp only [Option.map_some, show s.erase.machine = s.machine.erase from rfl,
        Machine.takeInput?_erase]
      cases htake : s.machine.takeInput? with
      | none =>
        simp only [Option.map_none, awaitInput_erase]
        rcases s.awaitInput with ⟨_ | _, s'⟩ <;> rfl
      | some taken =>
        obtain ⟨w, m⟩ := taken
        have hresume : s.machine.resume? = some ({ m with pending := none }.store dest w) := by
          simp only [Machine.resume?, hpending, htake, Option.map_some]
        have hstore : ({ m.erase with pending := none } : Checked.Machine).store dest.erase w =
            .ok ({ m with pending := none }.store dest w).erase :=
          Machine.store_erase { m with pending := none } dest w
        simp only [Option.map_some, hstore, Checked.ok_bind]
        exact cycle_erase ⟨_, s.host⟩ hview t (h.resume hresume)

theorem exec_erase (limit : Nat) (t : τ) (h : s.machine.Placed) :
    s.erase.exec limit (view t) = .ok ((execTraced tracer limit s t).1,
      (execTraced tracer limit s t).2.1.erase, view (execTraced tracer limit s t).2.2) := by
  induction limit generalizing s t with
  | zero => rfl
  | succ limit ih =>
    -- The next step needs the program counter in its bounds, and no tracer moves it.
    have hadvanced := placed_invariant.advance h
    rw [Checked.Session.exec, step_erase s hview t h, Checked.ok_bind, execTraced]
    rw [← step_eq_advance tracer s t] at hadvanced
    rcases hstep : s.step tracer t with ⟨_ | _ | _, s', t'⟩ <;> rw [hstep] at hadvanced
    · exact ih s' t' hadvanced
    · rfl
    · rfl

end

/-! ## Histories -/

namespace Usage

/-- The session in use and the instructions seen, on lists. -/
def erase (u : Usage σ) : Checked.Usage σ := ⟨u.session.erase, u.seen.map Instruction.erase⟩

omit [Host σ] in
theorem start_erase (host : σ) : (start host).erase = .start host := by
  have hmemory : Memory.zero.bytes.toList = List.replicate Memory.size 0 := Vector.toList_replicate
  rw [erase, start, Session.erase, Machine.initial, Machine.boot_erase, hmemory]
  rfl

theorem perform_erase {u : Usage σ} (h : u.session.machine.Placed) (operation : Operation) :
    u.erase.perform operation = .ok (u.perform operation).erase := by
  have hsession : u.erase.session = u.session.erase := rfl
  cases operation with
  | load image =>
    simp only [Checked.Usage.perform, hsession, load_erase]
    rfl
  | loadFile file =>
    cases file with
    | ok image =>
      simp only [Checked.Usage.perform, hsession, load_erase]
      rfl
    | error cause => rfl
  | send text => rfl
  | exec limit =>
    have hexec := exec_erase u.session Tracer.keeps_silent limit () h
    simp only [Checked.Usage.perform, hsession, hexec, Checked.ok_bind]
    rfl
  | execTraced limit =>
    have hexec := exec_erase u.session Tracer.keeps_recorder limit [] h
    rw [List.map_nil] at hexec
    have hcalls (calls : List Tracer.Call) :
        (calls.map Tracer.Call.erase).filterMap Checked.Call.instruction? =
          (calls.filterMap Tracer.Call.instruction?).map Instruction.erase := by
      rw [List.filterMap_map, List.map_filterMap]
      congr 1
      funext call
      exact call.instruction?_erase
    simp only [Checked.Usage.perform, hexec, Checked.ok_bind, Option.getD_some, hcalls, perform,
      erase, List.map_append]
    rfl
  | fetch =>
    simp only [Checked.Usage.perform, hsession, fetch_erase, Checked.ok_bind, perform]
    rcases u.session.fetch with ⟨f | i, s⟩
    · rfl
    · simp only [Except.map, erase, List.map_append, List.map_singleton]
      rfl
  | execute k =>
    have hseen : u.erase.seen[k]? = u.seen[k]?.map Instruction.erase := List.getElem?_map
    simp only [Checked.Usage.perform, hseen, perform]
    cases u.seen[k]? with
    | none => rfl
    | some i =>
      simp only [Option.map_some, hsession, execute_erase _ i h.le, Checked.ok_bind]
      rfl

theorem replay_erase {u : Usage σ} (h : u.session.machine.Placed) (operations : List Operation) :
    u.erase.replay operations = .ok (u.replay operations).erase ∧
      (u.replay operations).session.machine.Placed := by
  induction operations generalizing u with
  | nil => exact ⟨rfl, h⟩
  | cons operation rest ih =>
    rw [Checked.Usage.replay, List.foldlM_cons, perform_erase h operation, Checked.ok_bind]
    exact ih (perform_placed h operation)

omit [Host σ] in
/-- What the types of the machine say holds of the lists. -/
theorem inBounds_erase {u : Usage σ} (h : u.session.machine.Placed) : u.erase.InBounds := by
  have hindex {o : Operand} {index : Nat} {value : Word}
      (ho : o.erase = .register index value) : index < 8 := by
    cases o with
    | literal _ => cases ho
    | register r _ =>
      cases ho
      exact r.isLt
  constructor
  case memory => exact Vector.length_toList
  case registers => exact Vector.length_toList
  case pc_even => exact h.even
  case pc_le => exact h.le
  case arity =>
    intro i hi
    obtain ⟨i, -, rfl⟩ := List.mem_map.mp hi
    simp [Instruction.erase]
  case operand =>
    intro i hi index value hmem
    obtain ⟨i, -, rfl⟩ := List.mem_map.mp hi
    obtain ⟨o, -, ho⟩ := List.mem_map.mp hmem
    exact hindex ho
  case pending =>
    intro index value hpending
    obtain ⟨o, -, ho⟩ := Option.map_eq_some_iff.mp hpending
    exact hindex ho

end Usage

/-- No use of a session traps. Whatever is loaded, sent, run, fetched and executed on whatever host,
the checked session does what the session does, and the bounds hold of it. -/
theorem replay_never_traps (host : σ) (operations : List Operation) :
    ∃ u, (Checked.Usage.start host).replay operations = .ok u ∧ u.InBounds ∧
      u = ((Usage.start host).replay operations).erase := by
  obtain ⟨hreplay, hplaced⟩ := Usage.replay_erase (u := .start host) (.boot _) operations
  rw [Usage.start_erase] at hreplay
  exact ⟨_, hreplay, Usage.inBounds_erase hplaced, rfl⟩

/-- The program counter reaches its bound: the word that a program reads from its own data is a jump
target, and a call that was fetched earlier then pushes the last word address. -/
example : ((Usage.start ({} : Host.Bounded)).replay
    [.load [17, 0, 0, 0, 15, 0, 0, 128, 8, 0, 6, 0, 0, 128, 0, 0, 255, 255], .fetch, .fetch,
      .execute 1, .fetch, .execute 2, .execute 0]).session.machine.stack.words = [65535] := by
  decide +kernel

end Session

end WordVM
