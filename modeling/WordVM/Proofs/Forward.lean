import WordVM.Proofs.Execution

/-!
# Runs that only move forward

Jumps, calls and returns set the program counter (`Instruction.target?`), and every other
instruction leaves it behind itself. A run whose targets all lie beyond the instructions that set
them (`Session.MovesForward`) therefore comes closer to the program ceiling with each step, and from
there on it finds nothing but a halt. The measure is the number of word addresses that are left
below the ceiling (`Machine.room`): a step that another one can follow takes at least one of them
(`Session.room_of_runOne`), so they bound the fetches of the run (`Session.fetches_of_forward`) and
its length (`Session.exec_of_forward`).
-/

namespace WordVM

/-- Where an instruction sets the program counter to, if it sets it. A return finds this on the
stack. -/
def Instruction.target? (i : Instruction) (stack : Stack) : Option Nat :=
  match i.opcode with
  | .jump | .call => some (Word.byteOffset (i.valueAt 0))
  | .jumpIf => if i.valueAt 0 = 0 then none else some (Word.byteOffset (i.valueAt 1))
  | .jumpUnless => if i.valueAt 0 = 0 then some (Word.byteOffset (i.valueAt 1)) else none
  | .ret => stack.pop?.map fun top => Word.byteOffset top.1
  | _ => none

namespace Machine

variable {m m' : Machine}

/-- An instruction sets the program counter to its target, or does not touch it. -/
theorem perform_pc_eq (m : Machine) (i : Instruction) :
    (m.perform i).1.pc = (i.target? m.stack).getD m.pc := by
  obtain ⟨pc, op, o⟩ := i
  cases op
  case input =>
    simp only [perform]
    cases htake : m.takeInput? with
    | none => rfl
    | some taken =>
      obtain ⟨w, m'⟩ := taken
      obtain ⟨_, _, -, -, rfl⟩ := takeInput?_eq_some htake
      exact store_pc ..
  case ret =>
    simp only [perform, Instruction.target?]
    cases m.stack.pop? <;> rfl
  case jump | call =>
    simp only [Instruction.target?, Option.getD_some]
    rw [Instruction.valueAt_eq (by decide)]
    rfl
  case jumpIf | jumpUnless =>
    simp only [perform, Instruction.target?]
    rw [Instruction.valueAt_eq (k := 0) (by decide), Instruction.valueAt_eq (k := 1) (by decide)]
    split <;> rfl
  all_goals grind [perform, store_pc, jump, Instruction.target?]

/-- The number of word addresses from the program counter to the ceiling. -/
def room (m : Machine) : Nat := (programCeiling - m.pc) / 2

theorem room_le (m : Machine) : m.room ≤ 16384 := by
  show (0x8000 - m.pc) / 2 ≤ 16384
  omega

theorem room_eq (h : m'.pc = m.pc) : m'.room = m.room := by rw [room, room, h]

/-- Below the ceiling there is room. -/
theorem Placed.room_pos (h : m.Placed) (hbelow : m.pc < programCeiling) : 0 < m.room := by
  have heven := h.even
  have hpc : m.pc < 0x8000 := hbelow
  show 0 < (0x8000 - m.pc) / 2
  omega

/-- Below the ceiling, moving on by a word takes room. -/
theorem Placed.room_lt (h : m.Placed) (hbelow : m.pc < programCeiling)
    (hforward : m.pc + 2 ≤ m'.pc) : m'.room < m.room := by
  have heven := h.even
  have hpc : m.pc < 0x8000 := hbelow
  show (0x8000 - m'.pc) / 2 < (0x8000 - m.pc) / 2
  omega

end Machine

namespace Session

variable {σ : Type} [Host σ]

/-- Where the instruction that is fetched next sets the program counter to, if it sets it. -/
def target? (s : Session σ) : Option Nat :=
  match s.fetch with
  | (.ok i, s) => i.target? s.machine.stack
  | (.error _, _) => none

/-- If the instruction that is fetched next sets the program counter, it sets it to an offset beyond
its own. -/
def MovesForward (s : Session σ) : Prop := ∀ target ∈ s.target?, s.machine.pc < target

instance (s : Session σ) : Decidable s.MovesForward :=
  inferInstanceAs (Decidable (∀ target ∈ s.target?, s.machine.pc < target))

variable {s s' point : Session σ} {limit : Nat}

/-! ## Steps -/

theorem execute_pc (s : Session σ) (i : Instruction) :
    (s.execute i).2.machine.pc = (i.target? s.machine.stack).getD s.machine.pc := by
  rw [← Machine.perform_pc_eq]
  obtain ⟨host, ⟨-, f, h⟩ | ⟨-, h⟩ | ⟨-, h⟩ | ⟨-, h⟩⟩ :=
    s.execute_of_perform (i := i) (Prod.mk.eta).symm <;> rw [h]
  rfl

/-- From the ceiling on, there is a halt, which ends the run. -/
theorem runOne_of_le (h : programCeiling ≤ s.machine.pc) : s.runOne.1 = .exit := by
  rw [runOne_of_fetch (fetch_of_le h)]
  rfl

/-- A step that another one can follow has found an instruction below the ceiling. The program
counter is where the instruction has set it to, or else behind the instruction. -/
theorem pc_of_runOne (h : s.runOne = (.next, s')) :
    s.machine.pc < programCeiling ∧
      ∃ behind, s.machine.pc + 2 ≤ behind ∧ s'.machine.pc = s.target?.getD behind := by
  have hbelow : s.machine.pc < programCeiling := by
    apply Nat.lt_of_not_le
    intro hbeyond
    have hexit := runOne_of_le hbeyond
    rw [h] at hexit
    cases hexit
  refine ⟨hbelow, s.fetch.2.machine.pc, ?_, ?_⟩
  · rw [fetch_machine]
    obtain ⟨hbeyond, -⟩ | ⟨_, -, -, -, hfetch⟩ | ⟨op, _, -, hfetch⟩ := s.machine.fetch_cases
    · exact absurd hbelow (Nat.not_lt.mpr hbeyond)
    · rw [hfetch]
      exact Nat.le_refl _
    · have hwidth : op.width = 2 * (1 + op.arity) := rfl
      rw [hfetch]
      dsimp only
      omega
  · cases hfetch : s.fetch with | mk result fetched =>
    cases result with
    | error f =>
      simp only [runOne, hfetch] at h
      cases h
    | ok i =>
      rw [runOne_of_fetch hfetch] at h
      obtain rfl := (Prod.mk.inj h).2
      simp only [execute_pc, target?, hfetch]

theorem placed_of_runOne (hplaced : point.machine.Placed) (h : point.runOne = (.next, s')) :
    s'.machine.Placed := by
  have hnext := placed_invariant.runOne hplaced
  rwa [h] at hnext

/-- A step that moves forward, and that another one can follow, takes room. -/
theorem room_of_runOne (hplaced : point.machine.Placed) (hforward : point.MovesForward)
    (h : point.runOne = (.next, s')) : s'.machine.room < point.machine.room := by
  obtain ⟨hbelow, behind, hbehind, hpc⟩ := pc_of_runOne h
  apply hplaced.room_lt hbelow
  cases htarget : point.target? with
  | none =>
    rw [hpc, htarget]
    exact hbehind
  | some target =>
    -- Both offsets are even, so the target is at least one word further on.
    have hlt := hforward target htarget
    have heven := hplaced.even
    have heven' := (placed_of_runOne hplaced h).even
    rw [htarget, Option.getD_some] at hpc
    omega

/-! ## Runs -/

omit [Host σ] in
/-- The session that a step fetches in is placed like the session itself. -/
theorem placed_of_fetchPoint? (hplaced : s.machine.Placed) (h : s.fetchPoint? = some point) :
    point.machine.Placed ∧ point.machine.room = s.machine.room := by
  obtain ⟨-, hresume, -⟩ := fetchPoint?_eq_some_iff.mp h
  exact ⟨hplaced.resume hresume, Machine.room_eq (Machine.resume?_pc hresume)⟩

/-- The same from one step of a run to the next: if an input instruction has to be completed first,
this takes no room. -/
theorem room_of_step (hplaced : s.machine.Placed) (hpoint : s.fetchPoint? = some point)
    (hforward : point.MovesForward) (hone : point.runOne = (.next, s')) :
    s'.machine.Placed ∧ s'.machine.room < s.machine.room := by
  obtain ⟨hplaced', hroom⟩ := placed_of_fetchPoint? hplaced hpoint
  constructor
  · exact placed_of_runOne hplaced' hone
  · rw [← hroom]
    exact room_of_runOne hplaced' hforward hone

/-- A run that only moves forward fetches at most as many instructions below the ceiling as there is
room for, and then perhaps a halt beyond it. -/
theorem fetches_of_forward (hplaced : s.machine.Placed)
    (hforward : ∀ point ∈ s.fetches limit, point.MovesForward) :
    ∃ below beyond, s.fetches limit = below ++ beyond ∧
      below.length ≤ s.machine.room ∧ beyond.length ≤ 1 ∧
      (∀ point ∈ below, point.machine.pc < programCeiling) ∧
      ∀ point ∈ beyond, programCeiling ≤ point.machine.pc ∧
        point.fetch.1 = .ok (.halt point.machine.pc) := by
  induction limit generalizing s with
  | zero => exact ⟨[], [], rfl, Nat.zero_le _, Nat.zero_le _, nofun, nofun⟩
  | succ limit ih =>
    obtain ⟨-, hfetches⟩ | ⟨point, s', hpoint, hone, -, hfetches⟩ := s.run_succ_cases limit
    · rw [hfetches]
      cases hpoint : s.fetchPoint? with
      | none => exact ⟨[], [], rfl, Nat.zero_le _, Nat.zero_le _, nofun, nofun⟩
      | some point =>
        by_cases hbelow : point.machine.pc < programCeiling
        · obtain ⟨hplaced', hroom⟩ := placed_of_fetchPoint? hplaced hpoint
          have hpos := hplaced'.room_pos hbelow
          rw [hroom] at hpos
          exact ⟨[point], [], rfl, hpos, Nat.zero_le _, List.forall_mem_singleton.mpr hbelow, nofun⟩
        · have hbeyond := Nat.le_of_not_lt hbelow
          have hhalt : point.fetch.1 = .ok (.halt point.machine.pc) := by
            rw [fetch_of_le hbeyond]
          exact ⟨[], [point], rfl, Nat.zero_le _, Nat.le_refl _, nofun,
            List.forall_mem_singleton.mpr ⟨hbeyond, hhalt⟩⟩
    · rw [hfetches, List.forall_mem_cons] at hforward
      obtain ⟨hnext, hroom⟩ := room_of_step hplaced hpoint hforward.1 hone
      obtain ⟨below, beyond, hsplit, hlength, hhalt, hbelow, hbeyond⟩ := ih hnext hforward.2
      refine ⟨point :: below, beyond, ?_, ?_, hhalt, ?_, hbeyond⟩
      · rw [hfetches, hsplit, List.cons_append]
      · rw [List.length_cons]
        omega
      · exact List.forall_mem_cons.mpr ⟨(pc_of_runOne hone).1, hbelow⟩

/-- A run that only moves forward ends within one step more than there is room for. -/
theorem exec_of_forward (hplaced : s.machine.Placed)
    (hforward : ∀ point ∈ s.fetches limit, point.MovesForward) (hlimit : s.machine.room < limit) :
    (s.exec limit).1 ≠ .next := by
  induction limit generalizing s with
  | zero => exact absurd hlimit (Nat.not_lt_zero _)
  | succ limit ih =>
    obtain ⟨hlast, -⟩ | ⟨point, s', hpoint, hone, hexec, hfetches⟩ := s.run_succ_cases limit
    · exact hlast
    · rw [hfetches, List.forall_mem_cons] at hforward
      obtain ⟨hnext, hroom⟩ := room_of_step hplaced hpoint hforward.1 hone
      rw [hexec]
      apply ih hnext hforward.2
      omega

/-- Runs that only move forward end, whatever memory holds and whatever the program makes of it.
From any session that has been in use, if each target that the run comes upon lies beyond the
instruction that sets it, then the run is over within 16385 steps, or waits for input, and a higher
limit makes no difference. It fetches at most 16384 instructions below the ceiling, and then perhaps
one halt from the ceiling on. -/
theorem forward_run_ends (host : σ) (operations : List Operation) :
    let s := ((Usage.start host).replay operations).session
    (∀ point ∈ s.fetches 16385, point.MovesForward) →
      (∃ below beyond, s.fetches 16385 = below ++ beyond ∧
        below.length ≤ 16384 ∧ beyond.length ≤ 1 ∧
        (∀ point ∈ below, point.machine.pc < programCeiling) ∧
        ∀ point ∈ beyond, programCeiling ≤ point.machine.pc ∧
          point.fetch.1 = .ok (.halt point.machine.pc)) ∧
      ((s.exec 16385).1 = .exit ∨ (s.exec 16385).1 = .needInput) ∧
      ∀ more, s.exec (16385 + more) = s.exec 16385 ∧
        s.fetches (16385 + more) = s.fetches 16385 := by
  intro s hforward
  have hplaced : s.machine.Placed := Usage.replay_placed (.boot _) operations
  have hroom := s.machine.room_le
  have hends : (s.exec 16385).1 ≠ .next := exec_of_forward hplaced hforward (by omega)
  refine ⟨?_, ?_, fun more => ⟨exec_add hends more, fetches_add hends more⟩⟩
  · obtain ⟨below, beyond, hsplit, hlength, hrest⟩ := fetches_of_forward hplaced hforward
    exact ⟨below, beyond, hsplit, Nat.le_trans hlength hroom, hrest⟩
  · cases houtcome : (s.exec 16385).1 with
    | next => exact absurd houtcome hends
    | needInput => exact .inr rfl
    | exit => exact .inl rfl

/-- A jump from the first word to beyond the ceiling. -/
theorem forward_run_ends_jump :
    let s := ((Usage.start fresh.host).replay [.load [6, 0, 32, 78]]).session
    (∀ point ∈ s.fetches 16385, point.MovesForward) ∧
      (s.fetches 16385).map (·.machine.pc) = [0, 40000] ∧
      (s.exec 16385).1 = .exit ∧ ∀ more, s.exec (16385 + more) = s.exec 16385 := by
  intro s
  have hforward : ∀ point ∈ s.fetches 16385, point.MovesForward := by decide +kernel
  have hpcs : (s.fetches 16385).map (·.machine.pc) = [0, 40000] := by decide +kernel
  have hexit : (s.exec 16385).1 = .exit := by decide +kernel
  obtain ⟨-, -, hstays⟩ := forward_run_ends fresh.host [.load [6, 0, 32, 78]] hforward
  exact ⟨hforward, hpcs, hexit, fun more => (hstays more).1⟩

end Session

end WordVM
