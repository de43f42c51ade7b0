import WordVM.Proofs.Tracing

/-!
# Programs in memory

A program is laid out in memory as the words of its instructions (`Instruction.encode`), low bytes
first. `Memory.Holds` says which words lie in memory from some offset on, and
`Memory.holds_iff_prefix` what that means for its bytes.

Reading and writing instructions are inverse to each other. Words that were written for an
instruction are read as this instruction (`Machine.fetch_of_holds`), and an instruction that is
read without a fault is written as the words it was read from (`Machine.holds_of_fetch`).
`fetch_encode_inverse` says both of whole programs.
-/

namespace WordVM

/-! ## Words in memory -/

namespace Memory

variable {memory : Memory} {i : Nat}

/-- These words lie in memory one after the other, from a byte offset on. -/
def Holds (memory : Memory) (i : Nat) (words : List Word) : Prop :=
  ∀ k (h : k < words.length), memory.read (i + 2 * k) = .ok words[k]

theorem holds_nil : memory.Holds i [] := nofun

theorem holds_cons {w : Word} {words : List Word} :
    memory.Holds i (w :: words) ↔ memory.read i = .ok w ∧ memory.Holds (i + 2) words := by
  have hoffset (k : Nat) : i + 2 * (k + 1) = i + 2 + 2 * k := by omega
  constructor
  · intro h
    refine ⟨h 0 (Nat.zero_lt_succ _), fun k hk => ?_⟩
    rw [← hoffset]
    exact h (k + 1) (Nat.succ_lt_succ hk)
  · intro h k hk
    obtain ⟨hfirst, hrest⟩ := h
    cases k with
    | zero => exact hfirst
    | succ k =>
      rw [hoffset]
      exact hrest k (Nat.lt_of_succ_lt_succ hk)

theorem holds_append {first second : List Word} :
    memory.Holds i (first ++ second) ↔
      memory.Holds i first ∧ memory.Holds (i + 2 * first.length) second := by
  induction first generalizing i with
  | nil => simp [holds_nil]
  | cons w rest ih =>
    rw [List.cons_append, holds_cons, holds_cons, ih, and_assoc, List.length_cons,
      show i + 2 + 2 * rest.length = i + 2 * (rest.length + 1) by omega]

/-- A word reads back as the two bytes that it consists of. -/
theorem read_eq_ok_iff {w : Word} : memory.read i = .ok w ↔
    memory.bytes[i]? = some w.lowByte ∧ memory.bytes[i + 1]? = some w.highByte := by
  unfold read
  split
  · next h =>
    rw [Except.ok.injEq, word, Vector.getElem?_eq_getElem (by omega),
      Vector.getElem?_eq_getElem (by omega), Option.some.injEq, Option.some.injEq]
    constructor
    · rintro rfl
      exact ⟨by simp, by simp⟩
    · rintro ⟨hlow, hhigh⟩
      rw [hlow, hhigh, Word.ofBytes_lowByte_highByte]
  · next h =>
    constructor
    · intro hread
      cases hread
    · rintro ⟨-, hhigh⟩
      obtain ⟨hlt, -⟩ := Vector.getElem?_eq_some_iff.mp hhigh
      omega

/-- Words lie in memory where their bytes do. -/
theorem holds_iff_prefix {words : List Word} :
    memory.Holds i words ↔ words.flatMap Word.toBytes <+: memory.bytes.toList.drop i := by
  induction words generalizing i with
  | nil => simp [holds_nil]
  | cons w rest ih =>
    rw [holds_cons, ih, read_eq_ok_iff, List.flatMap_cons, Word.toBytes, List.cons_append,
      List.cons_append, List.nil_append]
    have hlength : memory.bytes.toList.length = size := Vector.length_toList
    by_cases h : i + 2 ≤ size
    -- The two bytes of the first word are the first two of what lies from the offset on.
    · rw [List.drop_eq_getElem_cons (by omega : i < memory.bytes.toList.length),
        List.drop_eq_getElem_cons (by omega : i + 1 < memory.bytes.toList.length),
        List.cons_prefix_cons, List.cons_prefix_cons]
      simp only [Vector.getElem_toList, Vector.getElem?_eq_getElem (show i < size by omega),
        Vector.getElem?_eq_getElem (show i + 1 < size by omega), Option.some.injEq, and_assoc,
        eq_comm]
    · constructor
      · rintro ⟨⟨-, hhigh⟩, -⟩
        obtain ⟨hlt, -⟩ := Vector.getElem?_eq_some_iff.mp hhigh
        omega
      · intro hprefix
        have hle := hprefix.length_le
        rw [List.length_drop, hlength, List.length_cons, List.length_cons] at hle
        omega

/-- The bytes of a memory that holds an image are those of the image, and zeros after it. -/
theorem toList_ofImage (image : List UInt8) (fits : image.length ≤ size) :
    (ofImage image fits).bytes.toList = image ++ List.replicate (size - image.length) 0 := by
  simp [ofImage, Vector.toList]

end Memory

/-! ## Operands and instructions -/

namespace Operand

/-- The operand can be written in a program: a literal has fifteen bits. -/
def WellFormed : Operand → Prop
  | literal value => value.toNat ≤ 32767
  | register .. => True

instance : DecidablePred WellFormed
  | literal _ => inferInstanceAs (Decidable (_ ≤ _))
  | register .. => inferInstanceAs (Decidable True)

/-- The same operand, read when the registers have other contents. -/
def refresh (registers : Registers) : Operand → Operand
  | literal value => literal value
  | register index _ => register index (registers.get index)

variable {registers : Registers} {o : Operand} {raw : Word}

theorem toNat_encode_register (index : Fin registerCount) (value : Word) :
    (register index value).encode.toNat = 32768 + index := by
  have hindex : index.val < 8 := index.isLt
  have hcontent : (UInt16.ofNat index).toNat = index :=
    UInt16.toNat_ofNat_of_lt' (Nat.lt_trans hindex (by decide))
  rw [encode, UInt16.toNat_add, hcontent]
  show (32768 + index.val) % 65536 = _
  omega

/-- What is written for an operand is read as this operand. -/
theorem decode_encode (h : o.WellFormed) :
    decode registers o.encode = .ok (o.refresh registers) := by
  cases o with
  | literal value => exact decode_literal registers (Nat.lt_succ_of_le h)
  | register index value => exact decode_register registers index (toNat_encode_register ..)

/-- An operand that is read is written as the word it was read from. -/
theorem encode_of_decode (h : decode registers raw = .ok o) : o.encode = raw := by
  have hgood : raw.toNat < 32776 := by
    by_contra hbad
    rw [decode_invalid registers (Nat.not_lt.mp hbad)] at h
    cases h
  by_cases hlit : raw.toNat < 32768
  · rw [decode_literal registers hlit] at h
    cases h
    rfl
  · have hindex : raw.toNat - 32768 < 8 := by omega
    rw [decode_register registers ⟨raw.toNat - 32768, hindex⟩ (by dsimp only; omega)] at h
    cases h
    apply UInt16.toNat_inj.mp
    rw [toNat_encode_register]
    dsimp only
    omega

end Operand

namespace Instruction

/-- Each operand of the instruction can be written in a program. -/
def WellFormed (i : Instruction) : Prop := ∀ o ∈ i.operands.toList, o.WellFormed

instance (i : Instruction) : Decidable i.WellFormed :=
  inferInstanceAs (Decidable (∀ o ∈ i.operands.toList, o.WellFormed))

/-- The same instruction, read at another byte offset when the registers have other contents. -/
def readAt (i : Instruction) (pc : Nat) (registers : Registers) : Instruction :=
  ⟨pc, i.opcode, i.operands.map (Operand.refresh registers)⟩

@[simp] theorem length_encode (i : Instruction) : i.encode.length = 1 + i.opcode.arity := by
  simp [encode, Nat.add_comm]

/-- An instruction takes two bytes for each of its words. -/
theorem width_eq (i : Instruction) : i.opcode.width = 2 * i.encode.length := by
  rw [length_encode, Opcode.width]

/-- The words after the opcode of an instruction in memory are its operand words. -/
theorem operandWords_of_holds {memory : Memory} {pc : Nat} {words : List Word} {op : Opcode}
    (hpc : pc < programCeiling) (h : memory.Holds (pc + 2) words)
    (hlength : words.length = op.arity) :
    (operandWords memory pc hpc op).toList = words := by
  apply List.ext_getElem
  · rw [Vector.length_toList, hlength]
  · intro k hk hk'
    have hread := h k hk'
    rw [show pc + 2 + 2 * k = pc + 2 * (k + 1) by omega,
      read_operandWords memory hpc (hlength ▸ hk')] at hread
    rw [Vector.getElem_toList]
    exact Except.ok.inj hread

theorem holds_operandWords (memory : Memory) {pc : Nat} (hpc : pc < programCeiling) (op : Opcode) :
    memory.Holds (pc + 2) (operandWords memory pc hpc op).toList := by
  intro k hk
  have hk' : k < op.arity := by simpa using hk
  rw [show pc + 2 + 2 * k = pc + 2 * (k + 1) by omega, Vector.getElem_toList]
  exact read_operandWords memory hpc hk'

/-- An instruction is read from the operand words that are written for it. -/
theorem decode_eq_readAt {memory : Memory} (registers : Registers) {pc : Nat} {i : Instruction}
    (hpc : pc < programCeiling) (hwf : i.WellFormed)
    (hwords : (operandWords memory pc hpc i.opcode).toList = i.operands.toList.map Operand.encode) :
    decode memory registers pc hpc i.opcode = i.readAt pc registers ∧
      operandFault? memory registers pc hpc i.opcode = none := by
  constructor
  · have hvector : operandWords memory pc hpc i.opcode = i.operands.map Operand.encode := by
      rw [← Vector.toList_inj, hwords, Vector.toList_map]
    simp only [decode, readAt, hvector, Vector.map_map]
    congr 1
    apply Vector.map_congr_left
    intro o ho
    simp only [Function.comp_apply, Operand.decode_encode (hwf o (Vector.mem_toList_iff.mpr ho))]
  · simp only [operandFault?, hwords, List.findSome?_map, List.findSome?_eq_none_iff]
    intro o ho
    simp only [Function.comp_apply, Operand.decode_encode (hwf o ho)]

/-- An instruction that is read without a fault is written as its opcode word and its operand
words. -/
theorem encode_decode {memory : Memory} {registers : Registers} {pc : Nat} {op : Opcode}
    (hpc : pc < programCeiling) (hnone : operandFault? memory registers pc hpc op = none) :
    (decode memory registers pc hpc op).encode =
      op.code :: (operandWords memory pc hpc op).toList := by
  simp only [operandFault?, List.findSome?_eq_none_iff] at hnone
  simp only [encode, decode, Vector.toList_map, List.map_map]
  congr 1
  refine (List.map_congr_left fun raw hraw => ?_).trans (List.map_id _)
  have hgood := hnone raw hraw
  rcases hdecode : Operand.decode registers raw with f | o
  · simp [hdecode] at hgood
  · simp only [Function.comp_apply, hdecode]
    exact Operand.encode_of_decode hdecode

end Instruction

/-! ## One fetch -/

namespace Machine

variable {m m' : Machine} {i : Instruction}

/-- An instruction that is written at the program counter is fetched. -/
theorem fetch_of_holds (hpc : m.pc < programCeiling) (hwf : i.WellFormed)
    (h : m.memory.Holds m.pc i.encode) :
    m.fetch = (.ok (i.readAt m.pc m.registers), { m with pc := m.pc + i.opcode.width }) := by
  obtain ⟨hopcode, hoperands⟩ := Memory.holds_cons.mp h
  have hwords : (Instruction.operandWords m.memory m.pc hpc i.opcode).toList = _ :=
    Instruction.operandWords_of_holds hpc hoperands (by simp)
  obtain ⟨hdecode, hnone⟩ :=
    Instruction.decode_eq_readAt m.registers hpc hwf hwords
  rw [fetch_of_ofCode?_eq_some hpc hopcode (Opcode.ofCode?_code _), hdecode, hnone, Option.or_none]

/-- An instruction that is fetched below the ceiling, without a fault, is written at the program
counter, which moves past it. -/
theorem holds_of_fetch (hpc : m.pc < programCeiling) (hfetch : m.fetch = (.ok i, m'))
    (hnone : m'.fault = none) :
    m.memory.Holds m.pc i.encode ∧ m' = { m with pc := m.pc + 2 * i.encode.length } := by
  obtain ⟨hceiling, -⟩ | ⟨_, -, -, -, h⟩ | ⟨op, hpc, hread, h⟩ := m.fetch_cases
  · exact absurd hpc (Nat.not_lt.mpr hceiling)
  · rw [h] at hfetch
    cases hfetch
  · rw [h, Prod.mk.injEq, Except.ok.injEq] at hfetch
    obtain ⟨rfl, rfl⟩ := hfetch
    obtain ⟨hfault, hoperands⟩ := Option.or_eq_none_iff.mp hnone
    constructor
    · rw [Instruction.encode_decode hpc hoperands, Memory.holds_cons]
      exact ⟨hread, Instruction.holds_operandWords m.memory hpc op⟩
    · rw [← Instruction.width_eq, hoperands, Option.or_none]
      rfl

/-! ## Fetch after fetch -/

/-- What `n` fetches give, one after the other, and the machine after them. -/
def fetchMany : (n : Nat) → Machine → List (Except Fault Instruction) × Machine
  | 0, m => ([], m)
  | n + 1, m =>
    let (result, m) := m.fetch
    let (results, m) := fetchMany n m
    (result :: results, m)

theorem fetchMany_succ (n : Nat) (m : Machine) :
    m.fetchMany (n + 1) = (m.fetch.1 :: (m.fetch.2.fetchMany n).1, (m.fetch.2.fetchMany n).2) := rfl

theorem fetch_registers (m : Machine) : m.fetch.2.registers = m.registers := by
  obtain ⟨-, h⟩ | ⟨_, -, -, -, h⟩ | ⟨_, _, -, h⟩ := m.fetch_cases
  · rw [h]
  · rw [h]
    rfl
  · rw [h]

theorem fetchMany_registers (n : Nat) (m : Machine) :
    (m.fetchMany n).2.registers = m.registers := by
  induction n generalizing m with
  | zero => rfl
  | succ n ih => rw [fetchMany_succ, ih, fetch_registers]

/-- A fault that has been recorded stays recorded. -/
theorem fault_of_fetchMany {n : Nat} (h : (m.fetchMany n).2.fault = none) : m.fault = none := by
  induction n generalizing m with
  | zero => exact h
  | succ n ih =>
    have hfetched : m.fetch.2.fault = none := ih h
    obtain ⟨-, h'⟩ | ⟨_, -, -, -, h'⟩ | ⟨_, _, -, h'⟩ := m.fetch_cases <;> rw [h'] at hfetched
    · exact hfetched
    · exact (Option.or_eq_none_iff.mp hfetched).1
    · exact (Option.or_eq_none_iff.mp hfetched).1

end Machine

/-! ## Programs -/

namespace Program

/-- The words of a program. -/
def words (program : List Instruction) : List Word := program.flatMap Instruction.encode

/-- A program as an image, the low byte of each word first. -/
def image (program : List Instruction) : List UInt8 := (words program).flatMap Word.toBytes

/-- Where the instruction with a given number begins, counted in bytes: after those before it. -/
def offset (program : List Instruction) (k : Nat) : Nat :=
  ((program.take k).map fun i => i.opcode.width).sum

@[simp] theorem offset_zero (program : List Instruction) : offset program 0 = 0 := rfl

@[simp] theorem offset_cons_succ (i : Instruction) (rest : List Instruction) (k : Nat) :
    offset (i :: rest) (k + 1) = i.opcode.width + offset rest k := by
  simp [offset]

theorem offset_length (program : List Instruction) :
    offset program program.length = 2 * (words program).length := by
  induction program with
  | nil => rfl
  | cons i rest ih =>
    have hwords : words (i :: rest) = i.encode ++ words rest := rfl
    rw [List.length_cons, offset_cons_succ, ih, hwords, List.length_append, Instruction.width_eq]
    omega

theorem length_image (program : List Instruction) :
    (image program).length = offset program program.length := by
  rw [offset_length, image]
  generalize words program = words
  induction words with
  | nil => rfl
  | cons w rest ih =>
    rw [List.flatMap_cons, List.length_append, ih, List.length_cons, Word.toBytes]
    simp only [List.length_cons, List.length_nil]
    omega

/-- Only the operands of the last instruction can lie above the ceiling, so there is room. -/
theorem length_image_le {program : List Instruction}
    (h : ∀ k < program.length, offset program k < programCeiling) :
    (image program).length ≤ Memory.size := by
  rw [length_image]
  rcases List.eq_nil_or_concat' program with rfl | ⟨before, last, rfl⟩
  · exact Nat.zero_le _
  · have hlast : offset (before ++ [last]) before.length < 0x8000 := h before.length (by simp)
    have harity := last.opcode.arity_le
    have hwidth : last.opcode.width = 2 * (1 + last.opcode.arity) := rfl
    have htotal : offset (before ++ [last]) (before ++ [last]).length =
        offset (before ++ [last]) before.length + last.opcode.width := by
      rw [offset, List.take_length]
      simp [offset]
    rw [htotal]
    show _ ≤ 0xFFFE
    omega

theorem holds_image (program : List Instruction) (fits : (image program).length ≤ Memory.size) :
    (Memory.ofImage (image program) fits).Holds 0 (words program) := by
  rw [Memory.holds_iff_prefix, Memory.toList_ofImage]
  exact List.prefix_append ..

/-- A program that is found at the bottom of memory is what the image begins with. -/
theorem image_eq_take {program : List Instruction} {bytes : List UInt8}
    (fits : bytes.length ≤ Memory.size) (h : (Memory.ofImage bytes fits).Holds 0 (words program)) :
    image program = (bytes ++ List.replicate (Memory.size - bytes.length) 0).take
      (2 * (words program).length) := by
  rw [Memory.holds_iff_prefix, Memory.toList_ofImage, List.drop_zero] at h
  rw [← offset_length, ← length_image]
  exact List.prefix_iff_eq_take.mp h

end Program

namespace Machine

variable {m m' : Machine}

/-- A program that is written at the program counter is fetched instruction by instruction. -/
theorem fetchMany_of_holds {program : List Instruction} (hwf : ∀ i ∈ program, i.WellFormed)
    (hpc : ∀ k < program.length, m.pc + Program.offset program k < programCeiling)
    (h : m.memory.Holds m.pc (Program.words program)) :
    m.fetchMany program.length =
      (program.mapIdx fun k i => .ok (i.readAt (m.pc + Program.offset program k) m.registers),
        { m with pc := m.pc + Program.offset program program.length }) := by
  induction program generalizing m with
  | nil => rfl
  | cons i rest ih =>
    rw [List.forall_mem_cons] at hwf
    have hwords : Program.words (i :: rest) = i.encode ++ Program.words rest := rfl
    rw [hwords, Memory.holds_append, ← Instruction.width_eq] at h
    have hfetch := fetch_of_holds (hpc 0 (Nat.zero_lt_succ _)) hwf.1 h.1
    -- The rest of the program lies where the first fetch leaves the program counter.
    have hrest := ih (m := { m with pc := m.pc + i.opcode.width }) hwf.2
      (fun k hk => by
        have hlt := hpc (k + 1) (Nat.succ_lt_succ hk)
        rwa [Program.offset_cons_succ, ← Nat.add_assoc] at hlt)
      h.2
    rw [List.length_cons, fetchMany_succ, hfetch, hrest, List.mapIdx_cons]
    simp only [Program.offset_cons_succ, Program.offset_zero, Nat.add_zero, Nat.add_assoc]

/-- Instructions that are fetched one after the other below the ceiling, without a fault, are
written one after the other where the first fetch began. -/
theorem holds_of_fetchMany {n : Nat} {program : List Instruction}
    (hfetch : m.fetchMany n = (program.map .ok, m'))
    (hpc : ∀ k < n, (m.fetchMany k).2.pc < programCeiling) (hnone : m'.fault = none) :
    m.memory.Holds m.pc (Program.words program) ∧
      m'.pc = m.pc + 2 * (Program.words program).length := by
  induction n generalizing m program with
  | zero =>
    obtain ⟨hprogram, rfl⟩ := Prod.mk.inj hfetch
    obtain rfl := List.map_eq_nil_iff.mp hprogram.symm
    exact ⟨Memory.holds_nil, rfl⟩
  | succ n ih =>
    rw [fetchMany_succ, Prod.mk.injEq] at hfetch
    obtain ⟨hresults, rfl⟩ := hfetch
    obtain ⟨i, rest, rfl, hfirst, hrest⟩ := List.map_eq_cons_iff.mp hresults.symm
    have hfirst' : m.fetch = (.ok i, m.fetch.2) := Prod.ext hfirst.symm rfl
    obtain ⟨hholds, hmoved⟩ :=
      holds_of_fetch (m := m) (hpc 0 (Nat.zero_lt_succ _)) hfirst' (fault_of_fetchMany hnone)
    obtain ⟨hholds', hpc'⟩ := ih (m := m.fetch.2) (Prod.ext hrest.symm rfl)
      (fun k hk => hpc (k + 1) (Nat.succ_lt_succ hk))
    have hwords : Program.words (i :: rest) = i.encode ++ Program.words rest := rfl
    -- The first fetch leaves memory alone and moves past what it has read.
    have hmemory : m.fetch.2.memory = m.memory := by rw [hmoved]
    have hnext : m.fetch.2.pc = m.pc + 2 * i.encode.length := by rw [hmoved]
    rw [hmemory, hnext] at hholds'
    rw [hwords, Memory.holds_append]
    refine ⟨⟨hholds, hholds'⟩, ?_⟩
    rw [hpc', hnext, List.length_append]
    omega

end Machine

namespace Session

variable {σ : Type} [Host σ]

/-- What `n` fetches give, one after the other, and the session after them. -/
def fetchMany : (n : Nat) → Session σ → List (Except Fault Instruction) × Session σ
  | 0, s => ([], s)
  | n + 1, s =>
    let (result, s) := s.fetch
    let (results, s) := fetchMany n s
    (result :: results, s)

theorem fetchMany_machine (s : Session σ) (n : Nat) :
    s.machine.fetchMany n = ((s.fetchMany n).1, (s.fetchMany n).2.machine) := by
  induction n generalizing s with
  | zero => rfl
  | succ n ih =>
    have hrest := ih s.fetch.2
    rw [fetch_machine] at hrest
    rw [Machine.fetchMany_succ, hrest, ← fetch_fst]
    rfl

theorem fetchMany_of_holds {s : Session σ} {program : List Instruction}
    (hwf : ∀ i ∈ program, i.WellFormed)
    (hpc : ∀ k < program.length, s.machine.pc + Program.offset program k < programCeiling)
    (h : s.machine.memory.Holds s.machine.pc (Program.words program)) :
    ∃ fetched, s.fetchMany program.length =
        (program.mapIdx fun k i => .ok (i.readAt (s.machine.pc + Program.offset program k)
          (s.fetchMany k).2.machine.registers), fetched) ∧
      fetched.machine =
        { s.machine with pc := s.machine.pc + Program.offset program program.length } := by
  have hrun := Machine.fetchMany_of_holds hwf hpc h
  rw [fetchMany_machine, Prod.mk.injEq] at hrun
  have hregisters (k : Nat) : (s.fetchMany k).2.machine.registers = s.machine.registers := by
    have hsame := s.machine.fetchMany_registers k
    rwa [fetchMany_machine] at hsame
  simp only [hregisters]
  exact ⟨(s.fetchMany program.length).2, Prod.ext hrun.1 rfl, hrun.2⟩

theorem holds_of_fetchMany {s fetched : Session σ} {n : Nat} {program : List Instruction}
    (hfetch : s.fetchMany n = (program.map .ok, fetched))
    (hpc : ∀ k < n, (s.fetchMany k).2.machine.pc < programCeiling)
    (hnone : fetched.machine.fault = none) :
    s.machine.memory.Holds s.machine.pc (Program.words program) ∧
      fetched.machine.pc = s.machine.pc + 2 * (Program.words program).length := by
  have hrun := s.fetchMany_machine n
  rw [hfetch] at hrun
  refine Machine.holds_of_fetchMany hrun (fun k hk => ?_) hnone
  rw [fetchMany_machine]
  exact hpc k hk

/-- Writing a program and fetching it are inverse to each other.
* A program whose instructions all begin below the ceiling, written as an image, can be loaded, and
  fetch after fetch then gives its instructions in order, each with the offset of its first word
  and with the contents that the registers have. No fault is recorded, and nothing but the program
  counter has moved.
* If the first fetches after a load all give instructions and begin below the ceiling, and no fault
  is recorded, then these instructions, written as a program, are the image up to the program
  counter, with zeros after its end. -/
theorem fetch_encode_inverse (s : Session σ) :
    (∀ program : List Instruction, (∀ i ∈ program, i.WellFormed) →
      (∀ k < program.length, Program.offset program k < programCeiling) →
      ∃ loaded fetched : Session σ,
        s.load (Program.image program) = (.ok (), loaded) ∧
          loaded.fetchMany program.length =
            (program.mapIdx fun k i => .ok
              (i.readAt (Program.offset program k) (loaded.fetchMany k).2.machine.registers),
              fetched) ∧
          fetched.machine.fault = none ∧
          fetched.machine =
            { loaded.machine with pc := Program.offset program program.length }) ∧
    (∀ image : List UInt8, image.length ≤ Memory.size →
      ∃ loaded : Session σ, s.load image = (.ok (), loaded) ∧
        ∀ (n : Nat) (program : List Instruction) (fetched : Session σ),
          loaded.fetchMany n = (program.map .ok, fetched) →
          (∀ k < n, (loaded.fetchMany k).2.machine.pc < programCeiling) →
          fetched.machine.fault = none →
          Program.image program =
            (image ++ List.replicate (Memory.size - image.length) 0).take fetched.machine.pc) := by
  constructor
  · intro program hwf hpc
    have hfits := Program.length_image_le hpc
    -- A machine that has just been loaded fetches from offset zero.
    obtain ⟨fetched, hfetch, hmachine⟩ := fetchMany_of_holds
      (s := ⟨.boot (.ofImage _ hfits), Host.log s.host (.imageLoaded _)⟩) hwf
      (by simpa only [Machine.boot, Nat.zero_add] using hpc) (Program.holds_image program hfits)
    simp only [Machine.boot, Nat.zero_add] at hfetch hmachine
    exact ⟨_, fetched, s.load_of_le hfits, hfetch, by rw [hmachine], hmachine⟩
  · intro image fits
    refine ⟨_, s.load_of_le fits, fun n program fetched hfetch hpc hnone => ?_⟩
    obtain ⟨hholds, hend⟩ := holds_of_fetchMany hfetch hpc hnone
    rw [hend, show (Machine.boot (.ofImage image fits)).pc = 0 from rfl, Nat.zero_add]
    exact Program.image_eq_take fits hholds

/-- A program that sets a register to the largest literal and prints it, first written and fetched,
and then fetched from an image that is cut in the middle of a third instruction. -/
theorem fetch_encode_inverse_setOut :
    let program : List Instruction :=
      [⟨0, .set, #v[.register 1 0, .literal 32767]⟩, ⟨6, .out, #v[.register 1 0]⟩]
    let image : List UInt8 := [1, 0, 1, 128, 255, 127, 19, 0, 1, 128, 19]
    (∀ i ∈ program, i.WellFormed) ∧
      (∀ k < program.length, Program.offset program k < programCeiling) ∧
      (∃ loaded fetched : Session Host.Bounded,
        fresh.load (Program.image program) = (.ok (), loaded) ∧
          loaded.fetchMany 2 =
            (program.mapIdx fun k i => .ok
              (i.readAt (Program.offset program k) (loaded.fetchMany k).2.machine.registers),
              fetched) ∧
          fetched.machine.pc = 10) ∧
      image.length ≤ Memory.size ∧
      ((fresh.load image).2.fetchMany 2).1 = program.map .ok ∧
      Program.image program = (image ++ List.replicate (Memory.size - image.length) 0).take
        ((fresh.load image).2.fetchMany 2).2.machine.pc := by
  intro program image
  have hwf : ∀ i ∈ program, i.WellFormed := by decide
  have hpc : ∀ k < program.length, Program.offset program k < programCeiling := by decide
  have hfits : image.length ≤ Memory.size := by decide
  obtain ⟨hwrite, hread⟩ := fetch_encode_inverse fresh
  obtain ⟨loaded, fetched, hload, hfetch, -, hmachine⟩ := hwrite program hwf hpc
  obtain ⟨loaded', hload', hread⟩ := hread image hfits
  have hloaded : (fresh.load image).2 = loaded' := congrArg Prod.snd hload'
  have hresults : ((fresh.load image).2.fetchMany 2).1 = program.map .ok := by decide +kernel
  have hbelow : ∀ k < 2, ((fresh.load image).2.fetchMany k).2.machine.pc < programCeiling := by
    decide +kernel
  have hnone : ((fresh.load image).2.fetchMany 2).2.machine.fault = none := by decide +kernel
  rw [← hloaded] at hread
  exact ⟨hwf, hpc, ⟨loaded, fetched, hload, hfetch, by rw [hmachine]; rfl⟩, hfits, hresults,
    hread 2 program _ (Prod.ext hresults rfl) hbelow hnone⟩

end Session

end WordVM
