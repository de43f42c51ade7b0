import WordVM.Proofs.BadOperand
import WordVM.Proofs.Host.Transfer
import WordVM.Proofs.Safety

/-!
# What a fetch gives

A fetch finds a halt from the program ceiling on, and below it whatever the word at the program
counter names: nothing, or an opcode with the operand words behind it. `Instruction.IsAt` says what
it means for an instruction to lie in memory, and `Memory.OperandFault` which fault its operand
words cause. In all of these cases the words that are read lie within memory, so a fetch has no
address to complain about (`Machine.fetch_cases`, `Machine.exists_of_fetch_error`).

`fetch_exactly` is the whole description: what is given, what changes, what is asked of the host,
and that the loop which reads the operand words from the last one to the first comes to the same.
-/

namespace WordVM

theorem Opcode.toNat_code_le (op : Opcode) : op.code.toNat ≤ 21 := by cases op <;> decide

/-- The first twenty-two words are opcodes. -/
theorem Opcode.ofCode?_eq_none_iff {w : Word} : ofCode? w = none ↔ 21 < w.toNat := by
  constructor
  · intro hnone
    have hsome : ∀ n < 22, ofCode? (UInt16.ofNat n) ≠ none := by decide
    by_contra hle
    exact hsome w.toNat (by omega) (by rwa [UInt16.ofNat_toNat])
  · intro hlt
    cases hop : ofCode? w with
    | none => rfl
    | some op =>
      have hle := op.toNat_code_le
      rw [code_of_ofCode? hop] at hle
      omega

theorem Opcode.width_eq_add (op : Opcode) : op.width = 2 + 2 * op.arity := by
  rw [width]
  omega

/-! ## Instructions in memory -/

/-- The instruction is what lies at a byte offset of memory, read while the registers have these
contents. Its operands are in program order what the words behind the opcode decode to, with a
literal zero for a bad word. -/
structure Instruction.IsAt (i : Instruction) (memory : Memory) (registers : Registers) (pc : Nat) :
    Prop where
  pc_eq : i.pc = pc
  opcode : memory.read pc = .ok i.opcode.code
  operand : ∀ k (hk : k < i.opcode.arity), ∃ word, memory.read (pc + 2 * (k + 1)) = .ok word ∧
    i.operands[k] = Operand.decodeOrZero registers word

/-- What the operand words of the opcode at a byte offset cause: the fault of the bad one that is
nearest to the opcode, or no fault if all of them are good. -/
inductive Memory.OperandFault (memory : Memory) (pc : Nat) (op : Opcode) : Option Fault → Prop
  /-- Every operand word names a value or a register. -/
  | none (hgood : memory.badOperands pc op = []) : OperandFault memory pc op none
  /-- Of the bad operand words this is the one with the lowest offset. -/
  | some {offset : Nat} {word : Word} (hbad : offset ∈ memory.badOperands pc op)
      (hnearest : ∀ other ∈ memory.badOperands pc op, offset ≤ other)
      (hword : memory.read offset = .ok word) :
      OperandFault memory pc op (some (.invalidNumber word))

namespace Instruction

variable {memory : Memory} (registers : Registers) {pc : Nat} {op : Opcode}

/-- Decoding gives the instruction that lies in memory. -/
theorem isAt_decode (hpc : pc < programCeiling) (hop : memory.read pc = .ok op.code) :
    (decode memory registers pc hpc op).IsAt memory registers pc := by
  constructor
  · rfl
  · exact hop
  · intro k hk
    refine ⟨_, read_operandWords memory hpc hk, ?_⟩
    exact Vector.getElem_map ..

/-- Without bad operand words there is no fault. -/
theorem operandFault?_of_badOperands_eq_nil (hpc : pc < programCeiling)
    (hgood : memory.badOperands pc op = []) : operandFault? memory registers pc hpc op = none := by
  apply (operandFault?_eq_none_iff hpc op).mpr
  intro k hk
  refine ⟨_, read_operandWords memory hpc hk, ?_⟩
  apply Nat.lt_of_not_le
  intro hbad
  have hmem := (mem_badOperands_of_lt hpc hk).mpr hbad
  rw [hgood] at hmem
  cases hmem

/-- The fault that is found beside an instruction is the one that its operand words cause. -/
theorem operandFault_operandFault? (hpc : pc < programCeiling) :
    memory.OperandFault pc op (operandFault? memory registers pc hpc op) := by
  by_cases hgood : memory.badOperands pc op = []
  · rw [operandFault?_of_badOperands_eq_nil registers hpc hgood]
    exact .none hgood
  · obtain ⟨offset, hbad, hnearest, word, hword, hfault⟩ :=
      operandFault?_of_badOperands registers hpc hgood
    rw [hfault]
    exact .some hbad hnearest hword

end Instruction

/-! ## Fetches -/

namespace Machine

variable {m : Machine}

/-- A fetch fails for one reason only. In particular no word that it reads lies outside memory. -/
theorem exists_of_fetch_error {f : Fault} (h : m.fetch.1 = .error f) :
    ∃ word, f = .invalidOpcode word := by
  obtain ⟨-, hfetch⟩ | ⟨word, -, -, -, hfetch⟩ | ⟨op, _, -, hfetch⟩ := m.fetch_cases <;>
    rw [hfetch] at h <;> cases h
  exact ⟨word, rfl⟩

/-- Below the ceiling there is a word, and it decides what a fetch does. -/
theorem fetch_below (h : m.pc < programCeiling) :
    ∃ word, m.memory.read m.pc = .ok word ∧
      (21 < word.toNat → m.fetch = (.error (.invalidOpcode word), { m with
        pc := m.pc + 2
        fault := m.fault.or (some (.invalidOpcode word)) })) ∧
      (word.toNat ≤ 21 → ∃ i fault?, i.opcode.code = word ∧
        i.IsAt m.memory m.registers m.pc ∧ m.memory.OperandFault m.pc i.opcode fault? ∧
        m.fetch = (.ok i, { m with
          pc := m.pc + (2 + 2 * i.opcode.arity)
          fault := m.fault.or fault? })) := by
  obtain ⟨hceiling, -⟩ | ⟨word, -, hread, hnone, hfetch⟩ | ⟨op, hpc, hread, hfetch⟩ := m.fetch_cases
  · exact absurd h (Nat.not_lt.mpr hceiling)
  · have hword := Opcode.ofCode?_eq_none_iff.mp hnone
    exact ⟨word, hread, fun _ => hfetch, fun hle => absurd hword (Nat.not_lt.mpr hle)⟩
  · have hcode := op.toNat_code_le
    refine ⟨op.code, hread, fun hlt => absurd hcode (Nat.not_le.mpr hlt), fun _ => ?_⟩
    rw [op.width_eq_add] at hfetch
    exact ⟨_, _, rfl, Instruction.isAt_decode m.registers hpc hread,
      Instruction.operandFault_operandFault? m.registers hpc, hfetch⟩

end Machine

namespace Session

variable {σ : Type} [Host σ]

/-- What a fetch does, on any machine: one that runs, waits, has halted or has a fault recorded.
* From the program ceiling on it gives a halt and changes nothing. Below, a word that is no opcode
  is passed over and given as the fault, and an opcode is passed over together with its operand
  words and given as the instruction that lies there. A fault is recorded if it is the first one.
  Nothing else changes in the machine.
* A fetch does not fail for any other reason, so a run never comes upon an address outside memory
  here.
* Nothing is asked of the host but to report events. A journal beside the host shows this, and makes
  no difference.
* On plain lists, where a read that leaves memory gives a fault and the operand words are read from
  the last one to the first, the fetch does the same. -/
theorem fetch_exactly (s : Session σ) :
    let m := s.machine
    let noted := (s.map Host.Journaled.start).fetch
    (programCeiling ≤ m.pc → s.fetch = (.ok (.halt m.pc), s)) ∧
      (m.pc < programCeiling → ∃ word, m.memory.read m.pc = .ok word ∧
        (21 < word.toNat → s.fetch.1 = .error (.invalidOpcode word) ∧
          s.fetch.2.machine = { m with
            pc := m.pc + 2
            fault := m.fault.or (some (.invalidOpcode word)) }) ∧
        (word.toNat ≤ 21 → ∃ i fault?, i.opcode.code = word ∧
          i.IsAt m.memory m.registers m.pc ∧ m.memory.OperandFault m.pc i.opcode fault? ∧
          s.fetch.1 = .ok i ∧ s.fetch.2.machine = { m with
            pc := m.pc + (2 + 2 * i.opcode.arity)
            fault := m.fault.or fault? })) ∧
      (∀ f, s.fetch.1 = .error f → ∃ word, f = .invalidOpcode word) ∧
      (noted.1 = s.fetch.1 ∧ noted.2.map Host.Journaled.host = s.fetch.2 ∧
        noted.2.host.transfers = []) ∧
      s.erase.fetch = .ok (s.fetch.1.map Instruction.erase, s.fetch.2.erase) := by
  intro m noted
  have hsame : s.fetch = (noted.1, noted.2.map Host.Journaled.host) :=
    fetch_map Host.Journaled.hom (s.map Host.Journaled.start)
  refine ⟨fetch_of_le, ?_, ?_, ?_, s.fetch_erase⟩
  · intro hbelow
    obtain ⟨word, hread, hinvalid, hopcode⟩ := Machine.fetch_below hbelow
    refine ⟨word, hread, ?_, ?_⟩
    · intro hword
      rw [fetch_fst, fetch_machine, hinvalid hword]
      exact ⟨rfl, rfl⟩
    · intro hword
      obtain ⟨i, fault?, hcode, hat, hfault, hfetch⟩ := hopcode hword
      refine ⟨i, fault?, hcode, hat, hfault, ?_⟩
      rw [fetch_fst, fetch_machine, hfetch]
      exact ⟨rfl, rfl⟩
  · intro f hf
    rw [fetch_fst] at hf
    exact Machine.exists_of_fetch_error hf
  · rw [hsame]
    exact ⟨rfl, rfl, fetch_transfers _⟩

/-- A comparison with two bad operand words, of which the one nearer to the opcode is recorded. -/
theorem fetch_exactly_twoBadOperands :
    let s := (fresh.load [4, 0, 64, 156, 1, 0, 80, 195]).2
    let i : Instruction := ⟨0, .eq, #v[.literal 0, .literal 1, .literal 0]⟩
    s.machine.pc < programCeiling ∧ s.machine.memory.badOperands s.machine.pc .eq = [2, 6] ∧
      s.fetch.1 = .ok i ∧ i.IsAt s.machine.memory s.machine.registers 0 ∧
      s.fetch.2.machine.pc = 8 ∧ s.fetch.2.machine.fault = some (.invalidNumber 40000) := by
  intro s i
  have hbelow : s.machine.pc < programCeiling := by decide +kernel
  have hread : s.machine.memory.read s.machine.pc = .ok 4 := by decide +kernel
  have hbad : s.machine.memory.badOperands s.machine.pc .eq = [2, 6] := by decide +kernel
  have hnear : s.machine.memory.read 2 = .ok 40000 := by decide +kernel
  have hfirst : s.fetch.1 = .ok i := by decide +kernel
  obtain ⟨-, hfetch, -⟩ := fetch_exactly s
  obtain ⟨word, hword, -, hopcode⟩ := hfetch hbelow
  obtain rfl : word = 4 := Except.ok.inj (hword.symm.trans hread)
  obtain ⟨i', fault?, -, hat, hfault, hgiven, hmachine⟩ := hopcode (by decide)
  obtain rfl : i' = i := Except.ok.inj (hgiven.symm.trans hfirst)
  refine ⟨hbelow, hbad, hfirst, hat, by rw [hmachine]; rfl, ?_⟩
  rw [hmachine]
  cases hfault with
  | none hgood => cases hbad.symm.trans hgood
  | @some offset word hoffset hnearest hword =>
    have hle : offset ≤ 2 := hnearest 2 (by rw [hbad]; simp)
    have hmem : offset ∈ [2, 6] := hbad ▸ hoffset
    obtain rfl : offset = 2 := by
      simp only [List.mem_cons, List.not_mem_nil, or_false] at hmem
      omega
    obtain rfl : word = 40000 := Except.ok.inj (hword.symm.trans hnear)
    rfl

end Session

end WordVM
