import WordVM.Proofs.UpperHalf

/-!
# Bad operand words

An operand word that names neither a value nor a register is recorded as a fault when it is fetched,
and its instruction runs all the same, with a literal zero in its place. So this one execution is
that of the program in which these words are zero (`Memory.clear`): the fetch gives the same
instruction (`Instruction.decode_clear`), and of the words that were replaced the instruction reads
none (`Instruction.two_mul_loadAddress_notMem`). That a fault is recorded makes no difference to an
execution either (`Session.execute_withFault`), but the host hears of other events. Therefore two
hosts are compared by what they have to do with output alone, on a host that hears of no events
(`Host.Deaf`).

`badOperands_run_once` puts this together for all histories.
-/

namespace WordVM

/-! ## Hosts that hear of no events -/

namespace Host

variable {σ υ : Type}

/-- The hosts of this type hear of no events. -/
def Deaf (σ : Type) [Host σ] : Prop := ∀ (host : σ) (event : Log.Event), Host.log host event = host

/-- A host from which events are kept. -/
structure Muted (σ : Type) where
  host : σ

namespace Muted

variable [Host σ]

instance : Host (Muted σ) where
  write h bytes :=
    let (answer, host) := Host.write h.host bytes
    (answer, ⟨host⟩)
  flush h :=
    let (answer, host) := Host.flush h.host
    (answer, ⟨host⟩)
  log h _ := h

theorem deaf : Deaf (Muted σ) := fun _ _ => rfl

end Muted

/-- What a bounded host has to do with output: everything but the events. -/
def Bounded.sink (host : Bounded) : Muted Bounded := ⟨{ host with events := #[] }⟩

/-- The events that a bounded host has heard of make no difference to what it takes. -/
theorem Bounded.sink_hom : Hom sink where
  write host bytes := by
    have hroom (n : Nat) : Bounded.room { host with events := #[] } n = host.room n := rfl
    simp only [sink, Host.write, Bounded.write, hroom]
    split <;> rfl
  flush host := by
    obtain ⟨_, _, _, _ | allowed, _, flushes, _⟩ := host
    · rfl
    · by_cases hlimit : allowed ≤ flushes <;> simp [sink, Host.flush, Bounded.flush, hlimit]
  log _ _ := rfl

end Host

/-! ## Bad operand words -/

namespace Memory

variable {memory : Memory} {pc : Nat} {op : Opcode} {i : Nat}

/-- The byte offsets, in ascending order, of the operand words that name neither a value nor a
register, if this opcode lies at `pc`. -/
def badOperands (memory : Memory) (pc : Nat) (op : Opcode) : List Nat :=
  ((List.range op.arity).map fun k => pc + 2 * (k + 1)).filter fun i =>
    (memory.read i).toOption.any (32776 ≤ ·.toNat)

theorem mem_badOperands_iff : i ∈ memory.badOperands pc op ↔
    (∃ k < op.arity, i = pc + 2 * (k + 1)) ∧ ∃ w, memory.read i = .ok w ∧ 32776 ≤ w.toNat := by
  simp only [badOperands, List.mem_filter, List.mem_map, List.mem_range, eq_comm (b := i)]
  refine and_congr_right fun _ => ?_
  cases memory.read i <;> simp [Except.toOption]

/-- Zeros are written over the words at these byte offsets. -/
def clear (memory : Memory) : List Nat → Memory
  | [] => memory
  | i :: rest => clear ((memory.write i 0).toOption.getD memory) rest

/-- If these words do not overlap in part with each other or with another word, they are zero
afterwards, and the other word is as before. -/
theorem read_clear {offsets : List Nat} (hsize : ∀ j ∈ offsets, j + 2 ≤ size)
    (hapart : ∀ j ∈ offsets, j = i ∨ j + 2 ≤ i ∨ i + 2 ≤ j) :
    (memory.clear offsets).read i = if i ∈ offsets then .ok 0 else memory.read i := by
  induction offsets generalizing memory with
  | nil => rfl
  | cons j rest ih =>
    obtain ⟨hj, hrest⟩ := List.forall_mem_cons.mp hsize
    obtain ⟨happ, hapart'⟩ := List.forall_mem_cons.mp hapart
    obtain ⟨written, hwrite⟩ : ∃ written, memory.write j 0 = .ok written := ⟨_, dif_pos hj⟩
    simp only [clear, hwrite, Except.toOption, Option.getD_some, ih hrest hapart']
    by_cases hmem : i ∈ rest
    · simp [hmem]
    · rcases happ with rfl | hdisjoint
      · simp [read_write hwrite]
      · have hne : i ≠ j := by omega
        simp [hmem, hne, read_write_of_disjoint hwrite (by omega : i + 2 ≤ j ∨ j + 2 ≤ i)]

/-- The bad operand words are replaced by zeros, and no other word at an even byte offset. -/
theorem read_clear_badOperands (hpc : pc < programCeiling) {i : Nat} (heven : i % 2 = pc % 2) :
    (memory.clear (memory.badOperands pc op)).read i =
      if i ∈ memory.badOperands pc op then .ok 0 else memory.read i := by
  have hpc' : pc < 0x8000 := hpc
  have harity := op.arity_le
  refine read_clear (fun j hj => ?_) (fun j hj => ?_) <;>
    obtain ⟨⟨k, hk, rfl⟩, -⟩ := mem_badOperands_iff.mp hj
  · show pc + 2 * (k + 1) + 2 ≤ 0xFFFE
    omega
  · omega

end Memory

namespace Instruction

variable {memory : Memory} {registers : Registers} {pc : Nat} {op : Opcode}

theorem mem_badOperands_of_lt (hpc : pc < programCeiling) {k : Nat} (hk : k < op.arity) :
    pc + 2 * (k + 1) ∈ memory.badOperands pc op ↔
      32776 ≤ (operandWords memory pc hpc op)[k].toNat := by
  rw [Memory.mem_badOperands_iff, read_operandWords memory hpc hk]
  simp only [Except.ok.injEq, exists_eq_left', and_iff_right_iff_imp]
  exact fun _ => ⟨k, hk, rfl⟩

/-- With the bad operand words replaced, the good ones remain. -/
theorem operandWords_clear (memory : Memory) (hpc : pc < programCeiling) (op : Opcode) :
    operandWords (memory.clear (memory.badOperands pc op)) pc hpc op =
      (operandWords memory pc hpc op).map fun w => if 32776 ≤ w.toNat then 0 else w := by
  ext k hk
  have hread : (memory.clear (memory.badOperands pc op)).read (pc + 2 * (k + 1)) = _ :=
    Memory.read_clear_badOperands hpc (by omega)
  rw [read_operandWords _ hpc hk, read_operandWords _ hpc hk] at hread
  rw [Vector.getElem_map]
  by_cases hbad : 32776 ≤ (operandWords memory pc hpc op)[k].toNat
  · rw [if_pos ((mem_badOperands_of_lt hpc hk).mpr hbad)] at hread
    rw [if_pos hbad, Except.ok.inj hread]
  · rw [if_neg (mt (mem_badOperands_of_lt hpc hk).mp hbad)] at hread
    rw [if_neg hbad, Except.ok.inj hread]

/-- A bad operand word reads as zero, so nothing changes if it is one. -/
theorem decode_clear (memory : Memory) (registers : Registers) (hpc : pc < programCeiling)
    (op : Opcode) :
    decode (memory.clear (memory.badOperands pc op)) registers pc hpc op =
      decode memory registers pc hpc op := by
  simp only [decode, operandWords_clear, Vector.map_map]
  congr 2
  funext w
  by_cases hbad : 32776 ≤ w.toNat
  · rw [Function.comp_apply, if_pos hbad, Operand.decode_invalid registers hbad,
      Operand.decode_literal registers (by decide)]
  · rw [Function.comp_apply, if_neg hbad]

/-- Without bad operand words nothing is recorded. -/
theorem operandFault?_clear (memory : Memory) (registers : Registers) (hpc : pc < programCeiling)
    (op : Opcode) :
    operandFault? (memory.clear (memory.badOperands pc op)) registers pc hpc op = none := by
  rw [operandFault?_eq_none_iff]
  intro k hk
  refine ⟨_, read_operandWords _ hpc hk, ?_⟩
  simp only [operandWords_clear, Vector.getElem_map]
  split
  · decide
  · next hgood => exact Nat.not_le.mp hgood

/-- The first bad operand word is found and recorded. -/
theorem operandFault?_eq_find? (memory : Memory) (registers : Registers)
    (hpc : pc < programCeiling) (op : Opcode) :
    operandFault? memory registers pc hpc op =
      ((operandWords memory pc hpc op).toList.find? (32776 ≤ ·.toNat)).map .invalidNumber := by
  rw [operandFault?_eq_findSome?, ← List.findSome?_guard, List.map_findSome?]
  congr 1
  funext w
  by_cases hbad : 32776 ≤ w.toNat <;> simp [Operand.wordFault?, Option.guard, hbad]

/-- What is recorded is the bad operand word with the lowest address. -/
theorem operandFault?_of_badOperands (registers : Registers) (hpc : pc < programCeiling)
    (hbad : memory.badOperands pc op ≠ []) :
    ∃ i ∈ memory.badOperands pc op, (∀ j ∈ memory.badOperands pc op, i ≤ j) ∧
      ∃ w, memory.read i = .ok w ∧
        operandFault? memory registers pc hpc op = some (.invalidNumber w) := by
  have hfound : ((operandWords memory pc hpc op).toList.find? (32776 ≤ ·.toNat)).isSome := by
    obtain ⟨j, hj⟩ := List.exists_mem_of_ne_nil _ hbad
    obtain ⟨⟨k, hk, rfl⟩, -⟩ := Memory.mem_badOperands_iff.mp hj
    exact List.find?_isSome.mpr ⟨_, Vector.mem_toList_iff.mpr (Vector.getElem_mem hk),
      decide_eq_true ((mem_badOperands_of_lt hpc hk).mp hj)⟩
  obtain ⟨w, hw⟩ := Option.isSome_iff_exists.mp hfound
  rw [operandFault?_eq_find?, hw]
  obtain ⟨hlow, k, hk, rfl, hearlier⟩ := List.find?_eq_some_iff_getElem.mp hw
  rw [Vector.length_toList] at hk
  simp only [Vector.getElem_toList, decide_eq_true_eq, Bool.not_eq_true', decide_eq_false_iff_not]
    at hlow hearlier ⊢
  refine ⟨pc + 2 * (k + 1), (mem_badOperands_of_lt hpc hk).mpr hlow, fun j hj => ?_, _,
    read_operandWords memory hpc hk, rfl⟩
  obtain ⟨⟨k', hk', rfl⟩, -⟩ := Memory.mem_badOperands_iff.mp hj
  by_contra hlt
  exact hearlier k' (by omega) ((mem_badOperands_of_lt hpc hk').mp hj)

/-- A bad operand word names no register and gives zero. -/
theorem operand_of_mem_badOperands (registers : Registers) (hpc : pc < programCeiling) {k : Nat}
    (hk : k < op.arity) (hbad : pc + 2 * (k + 1) ∈ memory.badOperands pc op) :
    (decode memory registers pc hpc op).operands[k]? = some (.literal 0) := by
  obtain ⟨-, w, hread, hw⟩ := Memory.mem_badOperands_iff.mp hbad
  have hk' : k < (decode memory registers pc hpc op).opcode.arity := hk
  rw [Vector.getElem?_eq_getElem hk']
  exact congrArg some (getElem_decode_of_bad registers hpc op hk hread hw)

/-- An instruction does not read its own bad operand words. If the destination is one, nothing is
read, and if the address is one, the word at address zero is. -/
theorem two_mul_loadAddress_notMem (registers : Registers) (hpc : pc < programCeiling)
    {address : Nat} (h : address ∈ (decode memory registers pc hpc op).loadAddress?) :
    2 * address ∉ memory.badOperands pc op := by
  intro hmem
  obtain ⟨⟨k, hk, haddress⟩, -⟩ := Memory.mem_badOperands_iff.mp hmem
  rw [haddress] at hmem
  have hoperand := operand_of_mem_badOperands registers hpc hk hmem
  rw [Option.mem_def, loadAddress?] at h
  split at h
  · next hop =>
    obtain rfl : op = .readMem := hop
    obtain ⟨r, hdest, rfl⟩ := Option.map_eq_some_iff.mp h
    obtain rfl | rfl : k = 0 ∨ k = 1 := by
      have hk : k < 2 := hk
      omega
    · simp [destination?, hoperand, Operand.register?] at hdest
    · simp only [valueAt, hoperand, Option.elim_some, Operand.value] at haddress
      have hzero : UInt16.toNat 0 = 0 := rfl
      omega
  · cases h

end Instruction

/-! ## Fetches -/

namespace Machine

variable {m : Machine} {op : Opcode} {f : Fault}

/-- The machine with this fault recorded. -/
def withFault (m : Machine) (f : Fault) : Machine := { m with fault := some f }

/-- With zeros in place of the bad operand words nothing is recorded. -/
theorem fetch_clear (hfault : m.fault = none) (hpc : m.pc < programCeiling)
    (hop : m.memory.read m.pc = .ok op.code) :
    (m.withMemory (m.memory.clear (m.memory.badOperands m.pc op))).fetch =
      (.ok (.decode m.memory m.registers m.pc hpc op),
        { m with pc := m.pc + op.width }.withMemory
          (m.memory.clear (m.memory.badOperands m.pc op))) := by
  have hnot : m.pc ∉ m.memory.badOperands m.pc op := by
    intro hmem
    obtain ⟨⟨k, -, hk⟩, -⟩ := Memory.mem_badOperands_iff.mp hmem
    omega
  have hread : (m.memory.clear (m.memory.badOperands m.pc op)).read m.pc = .ok op.code := by
    rw [Memory.read_clear_badOperands hpc rfl, if_neg hnot, hop]
  have hfetch := fetch_of_ofCode?_eq_some
    (m := m.withMemory (m.memory.clear (m.memory.badOperands m.pc op))) hpc hread op.ofCode?_code
  rw [hfetch]
  simp only [withMemory, Instruction.decode_clear, Instruction.operandFault?_clear, hfault,
    Option.or_none]

/-- With bad operand words the same instruction is fetched, and the word with the lowest address is
recorded. -/
theorem fetch_of_badOperands (hfault : m.fault = none) (hpc : m.pc < programCeiling)
    (hop : m.memory.read m.pc = .ok op.code) (hbad : m.memory.badOperands m.pc op ≠ []) :
    ∃ i ∈ m.memory.badOperands m.pc op, (∀ j ∈ m.memory.badOperands m.pc op, i ≤ j) ∧
      ∃ w, m.memory.read i = .ok w ∧
        m.fetch = (.ok (.decode m.memory m.registers m.pc hpc op),
          { m with pc := m.pc + op.width }.withFault (.invalidNumber w)) := by
  obtain ⟨i, hi, hlowest, w, hread, hrecorded⟩ :=
    Instruction.operandFault?_of_badOperands m.registers hpc hbad
  refine ⟨i, hi, hlowest, w, hread, ?_⟩
  rw [fetch_of_ofCode?_eq_some hpc hop op.ofCode?_code, hrecorded, hfault]
  rfl

/-! ## Executions with a fault recorded -/

@[simp] theorem store_withFault (m : Machine) (dest : Operand) (w : Word) :
    (m.withFault f).store dest w = (m.store dest w).withFault f := by
  cases dest <;> rfl

theorem takeInput?_withFault (m : Machine) : (m.withFault f).takeInput? =
    m.takeInput?.map fun (w, m) => (w, m.withFault f) := by
  cases hinput : m.input <;> simp [takeInput?, withFault, hinput]

/-- No instruction looks at what is recorded. -/
theorem perform_withFault (m : Machine) (i : Instruction) :
    (m.withFault f).perform i = ((m.perform i).1.withFault f, (m.perform i).2) := by
  obtain ⟨pc, op, o⟩ := i
  cases op
  case input =>
    simp only [perform, takeInput?_withFault]
    cases m.takeInput? with
    | none => rfl
    | some taken =>
      simp only [Option.map_some, store_withFault]
  case writeMem =>
    simp only [perform, withFault]
    cases m.memory.write o[0].byteOffset o[1].value <;> rfl
  all_goals grind [perform, store_withFault, withFault, jump]

end Machine

namespace Session

variable {σ υ : Type} {f : Fault}

/-- The session with this fault recorded in its machine. -/
def withFault (s : Session σ) (f : Fault) : Session σ := ⟨s.machine.withFault f, s.host⟩

variable [Host σ] [Host υ]

theorem fail_of_deaf (h : Host.Deaf υ) (s : Session υ) (f : Fault) :
    s.fail f = ⟨s.machine.record f, s.host⟩ := by
  rw [← fail_machine, ← fail_host (P := (· = s.host)) (fun host event hs => (h host event).trans hs)
    rfl f]

theorem fail_withFault (h : Host.Deaf υ) (s : Session υ) (f' : Fault) :
    (s.withFault f).fail f' = (s.fail f').withFault f := by
  rw [fail_of_deaf h, fail_of_deaf h]
  rfl

/-- On a host that hears of no events, what is recorded makes no difference to an execution. -/
theorem execute_withFault (h : Host.Deaf υ) (s : Session υ) (i : Instruction) :
    (s.withFault f).execute i = ((s.execute i).1, (s.execute i).2.withFault f) :=
  execute_comm (g := (·.withFault f)) .id (fail_withFault h) (s.machine.perform_withFault i)

/-! ## The last execution of a run -/

/-- Two sessions differ at most in what their memories hold, in the fault that is recorded, and in
the events that their hosts have heard of. -/
structure SameButFault (sink : σ → υ) (s s' : Session σ) : Prop where
  registers : s'.machine.registers = s.machine.registers
  stack : s'.machine.stack = s.machine.stack
  pc : s'.machine.pc = s.machine.pc
  halted : s'.machine.halted = s.machine.halted
  input : s'.machine.input = s.machine.input
  pending : s'.machine.pending = s.machine.pending
  sink : sink s'.host = sink s.host

/-- Take two machines that differ in that the first one has a fault recorded and the second one has
another memory, on hosts that differ at most in what they have heard of. An instruction that reads
the same from both memories, or reads nothing, does the same on both machines, and writes to both
memories. -/
theorem execute_sameButFault {sink : σ → υ} (h : Host.Hom sink) (hdeaf : Host.Deaf υ)
    {s s₀ : Session σ} {m : Machine} {memory : Memory} {i : Instruction}
    (hs : s.machine = m.withFault f) (hs₀ : s₀.machine = m.withMemory memory)
    (hsink : sink s₀.host = sink s.host)
    (hload : ∀ address ∈ i.loadAddress?,
      memory.read (2 * address) = m.memory.read (2 * address)) :
    (s₀.execute i).1 = (s.execute i).1 ∧
      SameButFault sink (s.execute i).2 (s₀.execute i).2 ∧
      (s.execute i).2.machine.fault = some f ∧
      (s.execute i).2.machine.memory = i.afterWrite m.memory ∧
      (s₀.execute i).2.machine.memory = i.afterWrite memory := by
  -- Both are compared with the machine that has neither, on the host that hears of no events.
  let plain : Session υ := ⟨m, sink s.host⟩
  have hfault : s.map sink = plain.withFault f := by simp only [map, withFault, hs, plain]
  have hmemory : s₀.map sink = plain.withMemory memory := by
    simp only [map, withMemory, hs₀, hsink, plain]
  have hexecute := execute_map h s i
  have hexecute₀ := execute_map h s₀ i
  rw [hfault, execute_withFault hdeaf plain, Prod.mk.injEq] at hexecute
  rw [hmemory, execute_withMemory (s := plain) hload, Prod.mk.injEq] at hexecute₀
  obtain ⟨hresult, hsession⟩ := hexecute
  obtain ⟨hresult₀, hsession₀⟩ := hexecute₀
  have hmachine : (plain.execute i).2.machine.withFault f = (s.execute i).2.machine :=
    congrArg machine hsession
  have hmachine₀ : (plain.execute i).2.machine.withMemory (i.afterWrite memory) =
      (s₀.execute i).2.machine :=
    congrArg machine hsession₀
  refine ⟨hresult₀.symm.trans hresult, ?_, ?_, ?_, ?_⟩
  · constructor
    case sink => exact (congrArg host hsession₀).symm.trans (congrArg host hsession)
    all_goals
      rw [← hmachine, ← hmachine₀]
      rfl
  · rw [← hmachine]
    rfl
  · rw [execute_memory, hs]
    rfl
  · rw [execute_memory, hs₀]
    rfl

/-- A run that has recorded a fault with its first fetch does not fetch again. It ends with what it
has fetched, and unless this waits it takes one more step to do so. -/
theorem exec_of_fault {s s₁ s' : Session σ} {i : Instruction} {result : Except Fault Outcome}
    (hready : s.machine.Ready) (hfetch : s.fetch = (.ok i, s₁))
    (hexecute : s₁.execute i = (result, s')) (hfault : s'.machine.fault ≠ none) (limit : Nat) :
    s.fetches (limit + 1) = [s] ∧
      s.exec (limit + 2) = (if result = .ok .needInput then .needInput else .exit, s') := by
  have hstopped : s'.machine.stopped = true := by
    simp [Machine.stopped, Option.isSome_iff_ne_none, hfault]
  have hpoint : s.fetchPoint? = some s :=
    fetchPoint?_eq_some_iff.mpr ⟨hready.1, by simp [Machine.resume?, hready.2], rfl⟩
  have hnone : s'.fetches limit = [] := by
    by_contra hne
    exact absurd (running_of_fetches_ne_nil hne) (by simp [hstopped])
  have hadvance : s.advance = (result.toOption.getD .exit, s') := by
    rw [advance_of_ready hready, runOne_of_fetch hfetch, hexecute]
  rw [fetches_succ, exec_succ, hpoint, hadvance]
  rcases result with f | _ | _ | _
  · exact ⟨rfl, rfl⟩
  · exact ⟨congrArg ([s] ++ ·) hnone, exec_of_stopped hstopped limit⟩
  · exact ⟨rfl, rfl⟩
  · exact ⟨rfl, rfl⟩

/-- A fetch only reports to the host. -/
theorem fetch_sink {sink : σ → υ} (h : Host.Hom sink) (hdeaf : Host.Deaf υ) (s : Session σ) :
    sink s.fetch.2.host = sink s.host :=
  fetch_host (P := (sink · = sink s.host))
    (fun host event hs => ((h.log host event).symm.trans (hdeaf (sink host) event)).trans hs) rfl

/-- An instruction with bad operand words runs exactly once, and as if these words were zero. Take a
session that has been used in any way, on a host with a part that has to do with output and hears of
no events. It is ready for a fetch, and there is an instruction to be fetched, with bad operand
words. Take also the same session with zeros in place of these words.
* Both fetch the same instruction. Its execution has the same result in both, and leaves everything
  the same, output included, but for the fault recorded and for the bad words. Of these the one that
  the instruction writes, if it writes one, is the same as well.
* The fault that is recorded is the bad word with the lowest address, also if the execution fails.
* A run does not fetch again. It answers that it waits if the instruction does, and ends otherwise,
  with what the execution has left. -/
theorem badOperands_run_once {sink : σ → υ} (h : Host.Hom sink) (hdeaf : Host.Deaf υ) (host : σ)
    (operations : List Operation) (op : Opcode) :
    let s := ((Usage.start host).replay operations).session
    let memory := s.machine.memory
    let bad := memory.badOperands s.machine.pc op
    let s₀ := s.withMemory (memory.clear bad)
    s.machine.Ready → s.machine.pc < programCeiling → memory.read s.machine.pc = .ok op.code →
      bad ≠ [] →
      ∃ i s₁ s₁₀ result s' s₀', (s.fetch = (.ok i, s₁) ∧ s₁.execute i = (result, s')) ∧
          (s₀.fetch = (.ok i, s₁₀) ∧ s₁₀.execute i = (result, s₀')) ∧
          SameButFault sink s' s₀' ∧
          (∀ address : Nat, 2 * address ∉ bad ∨ i.writeAddress? = some address →
            s₀'.machine.memory.read (2 * address) = s'.machine.memory.read (2 * address)) ∧
          (∃ offset ∈ bad, (∀ other ∈ bad, offset ≤ other) ∧
            ∃ w, memory.read offset = .ok w ∧ s'.machine.fault = some (.invalidNumber w)) ∧
          ∀ limit, s.fetches (limit + 1) = [s] ∧
            s.exec (limit + 2) = (if result = .ok .needInput then .needInput else .exit, s') := by
  intro s memory bad s₀ hready hpc hop hbad
  have hplaced : s.machine.Placed := Usage.replay_placed (.boot _) operations
  clear_value s
  obtain ⟨-, hfault⟩ := Machine.stopped_eq_false_iff.mp hready.1
  obtain ⟨offset, hoffset, hlowest, w, hword, hfetch⟩ :=
    Machine.fetch_of_badOperands hfault hpc hop hbad
  have hfetch₀ := Machine.fetch_clear hfault hpc hop
  have hclear {address : Nat} (haddress : 2 * address ∉ bad) :
      (memory.clear bad).read (2 * address) = memory.read (2 * address) := by
    have heven : 2 * address % 2 = s.machine.pc % 2 := by have := hplaced.even; omega
    exact (Memory.read_clear_badOperands hpc heven).trans (if_neg haddress)
  let i := Instruction.decode memory s.machine.registers s.machine.pc hpc op
  let m : Machine := { s.machine with pc := s.machine.pc + op.width }
  have hfetched : s.fetch = (.ok i, s.fetch.2) := Prod.ext (by rw [fetch_fst, hfetch]) rfl
  have hfetched₀ : s₀.fetch = (.ok i, s₀.fetch.2) :=
    Prod.ext ((fetch_fst s₀).trans (congrArg Prod.fst hfetch₀)) rfl
  have hmachine : s.fetch.2.machine = m.withFault (.invalidNumber w) := by
    rw [fetch_machine, hfetch]
  have hmachine₀ : s₀.fetch.2.machine = m.withMemory (memory.clear bad) :=
    (fetch_machine s₀).trans (congrArg Prod.snd hfetch₀)
  obtain ⟨hresult, hsame, hrecorded, hmemory, hmemory₀⟩ :=
    execute_sameButFault h hdeaf hmachine hmachine₀
      ((fetch_sink h hdeaf s₀).trans (fetch_sink h hdeaf s).symm)
      (i := i) (fun address haddress =>
        hclear (Instruction.two_mul_loadAddress_notMem s.machine.registers hpc haddress))
  refine ⟨i, s.fetch.2, s₀.fetch.2, (s.fetch.2.execute i).1, (s.fetch.2.execute i).2,
    (s₀.fetch.2.execute i).2, ⟨hfetched, rfl⟩, ⟨hfetched₀, Prod.ext hresult rfl⟩, hsame,
    fun address haddress => ?_, ⟨offset, hoffset, hlowest, w, hword, hrecorded⟩,
    exec_of_fault hready hfetched rfl (by simp [hrecorded])⟩
  -- A word that differs has differed before, and the instruction has not written it.
  by_contra hne
  rw [hmemory, hmemory₀] at hne
  obtain ⟨hbefore, hunwritten⟩ := i.ne_of_afterWrite_ne hne
  exact haddress.elim (fun hgood => hbefore (hclear hgood)) hunwritten

/-- The program takes a remainder by a bad operand word. So it takes a remainder by zero, which
fails, and what is recorded is the bad word. -/
theorem badOperands_run_once_remainder :
    let s := ((Usage.start fresh.host).replay [.load [11, 0, 0, 128, 7, 0, 64, 156]]).session
    s.machine.Ready ∧ s.machine.pc < programCeiling ∧
      s.machine.memory.read s.machine.pc = .ok Opcode.mod.code ∧
      s.machine.memory.badOperands s.machine.pc .mod = [6] ∧
      ∃ i s₁ s', s.fetch = (.ok i, s₁) ∧ s₁.execute i = (.error (.divideByZero 0), s') ∧
        s'.machine.fault = some (.invalidNumber 40000) ∧ s.exec 2 = (.exit, s') := by
  intro s
  let remainder : Instruction := ⟨0, .mod, #v[.register 0 0, .literal 7, .literal 0]⟩
  have hready : s.machine.Ready := ⟨by decide +kernel, by decide +kernel⟩
  have hpc : s.machine.pc < programCeiling := by decide +kernel
  have hop : s.machine.memory.read s.machine.pc = .ok Opcode.mod.code := by decide +kernel
  have hbad : s.machine.memory.badOperands s.machine.pc .mod = [6] := by decide +kernel
  have hread : s.machine.memory.read 6 = .ok 40000 := by decide +kernel
  have hfirst : s.fetch.1 = .ok remainder := by decide +kernel
  have hresult : (s.fetch.2.execute remainder).1 = .error (.divideByZero 0) := by decide +kernel
  obtain ⟨i, s₁, -, result, s', -, ⟨hfetch, hexecute⟩, -, -, -, ⟨offset, hoffset, -, w, hw, hfault⟩,
    hrun⟩ := badOperands_run_once Host.Bounded.sink_hom Host.Muted.deaf fresh.host
      [.load [11, 0, 0, 128, 7, 0, 64, 156]] .mod hready hpc hop (by rw [hbad]; simp)
  -- What is claimed of some instruction, word and result is made out to be this.
  obtain rfl : i = remainder := Except.ok.inj ((congrArg Prod.fst hfetch).symm.trans hfirst)
  obtain rfl : offset = 6 := List.mem_singleton.mp (hbad ▸ hoffset)
  obtain rfl : w = 40000 := Except.ok.inj (hw.symm.trans hread)
  have hs₁ : s.fetch.2 = s₁ := congrArg Prod.snd hfetch
  rw [hs₁, hexecute] at hresult
  obtain rfl : result = .error (.divideByZero 0) := hresult
  exact ⟨hready, hpc, hop, hbad, remainder, s₁, s', hfetch, hexecute, hfault, (hrun 0).2⟩

end Session

end WordVM
