import WordVM.Proofs.Execution
import WordVM.Proofs.Host.Reliable

/-!
# The range of values

A word is a value if it has fifteen bits (`Word.IsValue`). Sums and products are always values.
The other arithmetic on words keeps to values, but does not make them: a wide word can go in and
come out (`Word.isValue_mod_iff`, `Word.isValue_complement_iff` and the like).

A freshly loaded machine has values in its registers and on its stack, and in memory the only wide
words are those of the image (`Machine.HoldsValues`). Instructions preserve this, as long as no
memory read brings one of these words into a register (`Execution.holdsValues_result`).
`values_of_narrow_loads` says so of histories, and `arithmetic_range` says exactly which results of
arithmetic are values.
-/

namespace WordVM

namespace Word

/-- The word has fifteen bits. -/
def IsValue (w : Word) : Prop := w.toNat ≤ 32767

instance : DecidablePred IsValue := fun _ => inferInstanceAs (Decidable (_ ≤ _))

variable {a b : Word}

/-! ## Results of fifteen bits -/

theorem isValue_iff_testBit : IsValue a ↔ a.toNat.testBit 15 = false := by
  have hlt := a.toNat_lt
  rw [IsValue, Nat.testBit_eq_decide_div_mod_eq, decide_eq_false_iff_not]
  omega

theorem isValue_ofBool (c : Bool) : IsValue (ofBool c) := by
  cases c <;> decide

theorem isValue_add (a b : Word) : IsValue (add a b) := by
  rw [IsValue, toNat_add]
  omega

theorem isValue_mul (a b : Word) : IsValue (mul a b) := by
  rw [IsValue, toNat_mul]
  omega

theorem isValue_wrap (v : UInt32) : IsValue (wrap v) := by
  rw [IsValue, toNat_wrap]
  omega

/-- A remainder is wide if the first word is wide and the second one is greater. -/
theorem isValue_mod_iff (hb : b ≠ 0) : IsValue (a % b) ↔ IsValue a ∨ b ≤ a := by
  have hlt := a.toNat_lt
  have hpos : 0 < b.toNat := Nat.pos_of_ne_zero fun h => hb (UInt16.toNat_inj.mp h)
  rw [IsValue, IsValue, UInt16.toNat_mod, UInt16.le_iff_toNat_le]
  by_cases hle : b.toNat ≤ a.toNat
  · -- At least one `b` is taken away, and less than another one is left.
    have hmod := Nat.mod_lt a.toNat hpos
    have hdiv : b.toNat * (a.toNat / b.toNat) + a.toNat % b.toNat = a.toNat :=
      Nat.div_add_mod ..
    have hquot : b.toNat * 1 ≤ b.toNat * (a.toNat / b.toNat) :=
      Nat.mul_le_mul_left _ (Nat.div_pos hle hpos)
    omega
  · rw [Nat.mod_eq_of_lt (Nat.not_le.mp hle)]
    simp [hle]

theorem isValue_and_iff : IsValue (a &&& b) ↔ IsValue a ∨ IsValue b := by
  rw [isValue_iff_testBit, isValue_iff_testBit, isValue_iff_testBit, UInt16.toNat_and,
    Nat.testBit_and, Bool.and_eq_false_iff]

theorem isValue_or_iff : IsValue (a ||| b) ↔ IsValue a ∧ IsValue b := by
  rw [isValue_iff_testBit, isValue_iff_testBit, isValue_iff_testBit, UInt16.toNat_or,
    Nat.testBit_or, Bool.or_eq_false_iff]

/-- Bit 15 is not among the bits that the complement flips. -/
theorem isValue_complement_iff : IsValue (complement a) ↔ IsValue a := by
  have hmask : (0x7FFF : Word).toNat.testBit 15 = false := rfl
  rw [isValue_iff_testBit, isValue_iff_testBit, complement, UInt16.toNat_xor, Nat.testBit_xor,
    hmask, Bool.false_xor]

/-- A value is the code of a character. -/
theorem toNat_toChar (h : IsValue a) : (toChar a).toNat = a.toNat := by
  have hle : a.toNat ≤ 32767 := h
  have hvalid : a.toNat.isValidChar := .inl (by omega)
  rw [toChar, if_pos hvalid, Char.ofNat, dif_pos hvalid]
  rfl

end Word

/-- A program reads values for characters. -/
theorem Input.isValue_code (c : Char) : (code c).IsValue := by
  unfold code
  split
  · decide
  · decide
  · decide
  · exact Word.isValue_wrap _

namespace Machine

variable {original : Memory} {m m' : Machine}

/-! ## Machines that hold values -/

/-- Registers and stack hold values, the program counter has a value for its word address, and the
wide words in memory are where they were originally. -/
structure HoldsValues (original : Memory) (m : Machine) : Prop where
  registers : ∀ r : Fin registerCount, (m.registers.get r).toNat ≤ 32767
  stack : ∀ w ∈ m.stack.words, w.toNat ≤ 32767
  pc_even : m.pc % 2 = 0
  pc_le : m.pc ≤ 65534
  memory : ∀ (address : Nat) (w : Word), m.memory.read (2 * address) = .ok w →
    32767 < w.toNat → original.read (2 * address) = .ok w

namespace HoldsValues

theorem boot (memory : Memory) : (boot memory).HoldsValues memory where
  registers r := by
    show ((Vector.replicate registerCount (0 : Word))[r.val]).toNat ≤ 32767
    rw [Vector.getElem_replicate]
    decide
  stack w h := by simp [Machine.boot, Stack.empty] at h
  pc_even := rfl
  pc_le := Nat.zero_le _
  memory _ _ h _ := h

theorem store (h : m.HoldsValues original) (dest : Operand) {w : Word} (hw : w.IsValue) :
    (m.store dest w).HoldsValues original := by
  cases dest with
  | literal _ => exact h
  | register index _ =>
    refine ⟨fun r => ?_, h.stack, h.pc_even, h.pc_le, h.memory⟩
    rw [get_store]
    split
    · exact hw
    · exact h.registers r

theorem push (h : m.HoldsValues original) {w : Word} (hw : w.IsValue) :
    HoldsValues original { m with stack := m.stack.push w } := by
  refine ⟨h.registers, fun v hv => ?_, h.pc_even, h.pc_le, h.memory⟩
  rcases List.mem_cons.mp hv with rfl | hv
  · exact hw
  · exact h.stack v hv

/-- The word on top of the stack is a value, and the words below it as well. -/
theorem pop (h : m.HoldsValues original) {w : Word} {stack : Stack}
    (hpop : m.stack.pop? = some (w, stack)) :
    w.IsValue ∧ HoldsValues original { m with stack } := by
  have hwords : m.stack.words = w :: stack.words := by
    unfold Stack.pop? at hpop
    split at hpop
    · cases hpop
    · next hwords =>
      cases hpop
      exact hwords
  have hstack := h.stack
  rw [hwords, List.forall_mem_cons] at hstack
  exact ⟨hstack.1, h.registers, hstack.2, h.pc_even, h.pc_le, h.memory⟩

theorem moveTo (h : m.HoldsValues original) {w : Word} (hw : w.IsValue) :
    HoldsValues original { m with pc := w.byteOffset } := by
  have hle : w.toNat ≤ 32767 := hw
  refine ⟨h.registers, h.stack, ?_, ?_, h.memory⟩ <;> dsimp only [Word.byteOffset] <;> omega

theorem write (h : m.HoldsValues original) {address w : Word} (hw : w.IsValue) {memory : Memory}
    (hwrite : m.memory.write address.byteOffset w = .ok memory) :
    HoldsValues original { m with memory } := by
  refine ⟨h.registers, h.stack, h.pc_even, h.pc_le, fun a v hread hwide => ?_⟩
  by_cases ha : a = address.toNat
  · subst ha
    -- The word just written is a value, so it is not one of the wide ones.
    rw [show 2 * address.toNat = address.byteOffset from rfl, Memory.read_write hwrite] at hread
    cases hread
    exact absurd hw (Nat.not_le.mpr hwide)
  · have hsame : memory.read (2 * a) = m.memory.read (2 * a) :=
      Memory.read_write_of_disjoint hwrite (by rw [Word.byteOffset]; omega)
    exact h.memory a v (hsame.symm.trans hread) hwide

/-- Nothing that happens between two instructions brings in a wide word. -/
theorem keptBetween (original : Memory) : KeptBetween (HoldsValues original) where
  receive _ h := ⟨h.registers, h.stack, h.pc_even, h.pc_le, h.memory⟩
  record _ h := ⟨h.registers, h.stack, h.pc_even, h.pc_le, h.memory⟩
  resume {m m'} hresume h := by
    obtain ⟨-, h'⟩ | ⟨_, -, -, h'⟩ | ⟨dest, c, rest, -, -, h'⟩ := m.resume?_cases <;>
      rw [h'] at hresume <;> cases hresume
    · exact h
    · have hresumed : HoldsValues original { m with input := rest, pending := none } :=
        ⟨h.registers, h.stack, h.pc_even, h.pc_le, h.memory⟩
      exact hresumed.store dest (Input.isValue_code c)
  fetch {m} h := by
    have heven := h.pc_even
    obtain ⟨-, h'⟩ | ⟨_, hlt, -, -, h'⟩ | ⟨op, hlt, -, h'⟩ := m.fetch_cases <;> rw [h']
    · exact h
    · have hpc : m.pc < 0x8000 := hlt
      refine ⟨h.registers, h.stack, ?_, ?_, h.memory⟩
      · show (m.pc + 2) % 2 = 0
        omega
      · show m.pc + 2 ≤ 65534
        omega
    · have hpc : m.pc < 0x8000 := hlt
      have harity := op.arity_le
      have hwidth : op.width = 2 * (1 + op.arity) := rfl
      refine ⟨h.registers, h.stack, ?_, ?_, h.memory⟩ <;> dsimp only <;> omega

end HoldsValues

end Machine

/-- The opcodes that compute with numbers or with their bits. -/
def Opcode.arithmetic : List Opcode := [.add, .mult, .mod, .and, .or, .not]

/-- The instruction is arithmetic, and its operands make for a result of fifteen bits. -/
def Instruction.YieldsValue (i : Instruction) : Prop :=
  match i.opcode with
  | .add | .mult => True
  | .mod => (i.valueAt 1).IsValue ∨ i.valueAt 2 ≤ i.valueAt 1
  | .and => (i.valueAt 1).IsValue ∨ (i.valueAt 2).IsValue
  | .or => (i.valueAt 1).IsValue ∧ (i.valueAt 2).IsValue
  | .not => (i.valueAt 1).IsValue
  | _ => False

/-- Arithmetic on values yields a value. -/
theorem Instruction.yieldsValue_of_operands {i : Instruction} (hop : i.opcode ∈ Opcode.arithmetic)
    (h : ∀ o ∈ i.operands, o.value.IsValue) : i.YieldsValue := by
  obtain ⟨pc, op, o⟩ := i
  have hvalue (k : Nat) (hk : k < op.arity) : o[k].value.IsValue :=
    h o[k] (Vector.getElem_mem hk)
  simp only [Opcode.arithmetic, List.mem_cons, List.not_mem_nil, or_false] at hop
  obtain rfl | rfl | rfl | rfl | rfl | rfl := hop
  · trivial
  · trivial
  · exact .inl (hvalue 1 (by decide))
  · exact .inl (hvalue 1 (by decide))
  · exact ⟨hvalue 1 (by decide), hvalue 2 (by decide)⟩
  · exact hvalue 1 (by decide)

namespace Execution

variable {original : Memory} {m : Machine} {e : Execution}

/-- If the instruction reads memory into a register, then it reads a value. -/
def LoadsValue (e : Execution) : Prop :=
  e.instruction.opcode = .readMem → ∀ w ∈ e.stored?, w.toNat ≤ 32767

instance : DecidablePred LoadsValue := fun e =>
  -- Only the word stored is to be looked at, not all words there are.
  have : Decidable (∀ w ∈ e.stored?, w.toNat ≤ 32767) := Option.decidableForallMem _
  inferInstanceAs (Decidable (_ → _))

/-- An instruction on values leaves values behind, unless it reads a wide word from memory. -/
theorem holdsValues_result (h : e.machine.HoldsValues original)
    (hoperands : ∀ o ∈ e.instruction.operands, o.value.IsValue)
    (hload : e.LoadsValue) : e.result.1.HoldsValues original := by
  obtain ⟨m, pc, op, o⟩ := e
  have hvalue (k : Nat) (hk : k < op.arity) : o[k].value.IsValue :=
    hoperands o[k] (Vector.getElem_mem hk)
  replace h : m.HoldsValues original := h
  have hhalted : Machine.HoldsValues original { m with halted := true } :=
    ⟨h.registers, h.stack, h.pc_even, h.pc_le, h.memory⟩
  simp only [result]
  cases op with
  | halt => exact hhalted
  | set => exact h.store _ (hvalue 1 (by decide))
  | push => exact h.push (hvalue 0 (by decide))
  | pop =>
    simp only [Machine.perform]
    split
    · next r w stack hr hpop =>
      obtain ⟨hw, hpopped⟩ := h.pop hpop
      have hstored := hpopped.store o[0] hw
      simp only [Machine.store, hr] at hstored
      exact hstored
    · exact h
  | eq => exact h.store _ (Word.isValue_ofBool _)
  | gt => exact h.store _ (Word.isValue_ofBool _)
  | jump => exact h.moveTo (hvalue 0 (by decide))
  | jumpIf =>
    simp only [Machine.perform]
    split
    · exact h
    · exact h.moveTo (hvalue 1 (by decide))
  | jumpUnless =>
    simp only [Machine.perform]
    split
    · exact h.moveTo (hvalue 1 (by decide))
    · exact h
  | add => exact h.store _ (Word.isValue_add _ _)
  | mult => exact h.store _ (Word.isValue_mul _ _)
  | mod =>
    simp only [Machine.perform]
    split
    · split
      · exact h
      · next hzero =>
        exact h.store _ ((Word.isValue_mod_iff hzero).mpr (.inl (hvalue 1 (by decide))))
    · exact h
  | and => exact h.store _ (Word.isValue_and_iff.mpr (.inl (hvalue 1 (by decide))))
  | or => exact h.store _ (Word.isValue_or_iff.mpr ⟨hvalue 1 (by decide), hvalue 2 (by decide)⟩)
  | not => exact h.store _ (Word.isValue_complement_iff.mpr (hvalue 1 (by decide)))
  | readMem =>
    simp only [Machine.perform]
    split
    · next hsome =>
      split
      · next w hread =>
        have hperform : m.perform ⟨pc, .readMem, o⟩ = (m.store o[0] w, .next) := by
          simp only [Machine.perform, hsome, if_true, hread]
        obtain ⟨r, hr⟩ := Option.isSome_iff_exists.mp hsome
        refine h.store _ (hload rfl w ?_)
        rw [stored?_of_store (show 0 < Opcode.readMem.arity by decide) hperform, hr]
        rfl
      · exact h
    · exact h
  | writeMem =>
    simp only [Machine.perform]
    split
    · next memory hwrite => exact h.write (hvalue 1 (by decide)) hwrite
    · exact h
  | call =>
    -- The program counter is a value's byte offset, so the return address is a value.
    have hreturn : Word.IsValue (UInt16.ofNat (m.pc / 2)) := by
      have hle := h.pc_le
      rw [Word.IsValue, UInt16.toNat_ofNat']
      omega
    exact (h.push hreturn).moveTo (hvalue 0 (by decide))
  | ret =>
    simp only [Machine.perform]
    split
    · next w stack hpop =>
      obtain ⟨hw, hpopped⟩ := h.pop hpop
      exact hpopped.moveTo hw
    · exact hhalted
  | out => exact h
  | input =>
    simp only [Machine.perform]
    split
    · next w m' htake =>
      obtain ⟨c, rest, -, rfl, rfl⟩ := Machine.takeInput?_eq_some htake
      have htaken : Machine.HoldsValues original { m with input := rest } :=
        ⟨h.registers, h.stack, h.pc_even, h.pc_le, h.memory⟩
      exact htaken.store _ (Input.isValue_code c)
    · exact ⟨h.registers, h.stack, h.pc_even, h.pc_le, h.memory⟩
  | noop => exact h

/-- On a machine that holds values, operands are values. -/
theorem isValue_operand (h : e.machine.HoldsValues original) (he : m.execution? = some e)
    {o : Operand} (ho : o ∈ e.instruction.operands) : o.value.IsValue := by
  obtain ⟨value, rfl, hvalue⟩ | ⟨index, rfl⟩ := Machine.operand_cases_of_execution he ho
  · exact hvalue
  · exact h.registers index

/-- A value is written as the character with this code. -/
theorem result_of_out (hop : e.instruction.opcode = .out) {o : Operand}
    (ho : e.instruction.operands[0]? = some o) (hvalue : o.value.IsValue) :
    ∃ c, e.result.2 = .emit c ∧ c.toNat = o.value.toNat := by
  obtain ⟨m, pc, op, operands⟩ := e
  cases hop
  obtain ⟨_, rfl⟩ := Vector.getElem?_eq_some_iff.mp ho
  exact ⟨_, rfl, Word.toNat_toChar hvalue⟩

/-- Arithmetic stores a value exactly if its operands make for one. -/
theorem isValue_stored_iff (hop : e.instruction.opcode ∈ Opcode.arithmetic) {w : Word}
    (hw : e.stored? = some w) : w.IsValue ↔ e.instruction.YieldsValue := by
  obtain ⟨m, pc, op, o⟩ := e
  simp only [Opcode.arithmetic, List.mem_cons, List.not_mem_nil, or_false] at hop
  obtain rfl | rfl | rfl | rfl | rfl | rfl := hop
  · rw [eq_of_stored?_of_store hw (by decide) rfl]
    exact iff_of_true (Word.isValue_add _ _) trivial
  · rw [eq_of_stored?_of_store hw (by decide) rfl]
    exact iff_of_true (Word.isValue_mul _ _) trivial
  · -- Without a destination, and for a divisor of zero, there is no remainder.
    have hsame : Instruction.destination? ⟨pc, .mod, o⟩ = o[0].register? :=
      Instruction.destination?_eq (by decide)
    cases hdest : o[0].register? with
    | none => simp [stored?, hsame, hdest] at hw
    | some r =>
      by_cases hzero : o[2].value = 0
      · simp [stored?, result, Machine.perform, hdest, hzero] at hw
      · rw [eq_of_stored?_of_store hw (by decide) (w := o[1].value % o[2].value)
          (by simp [Machine.perform, hdest, hzero])]
        exact Word.isValue_mod_iff hzero
  · rw [eq_of_stored?_of_store hw (by decide) rfl]
    exact Word.isValue_and_iff
  · rw [eq_of_stored?_of_store hw (by decide) rfl]
    exact Word.isValue_or_iff
  · rw [eq_of_stored?_of_store hw (by decide) rfl]
    exact Word.isValue_complement_iff

end Execution

namespace Session

variable {σ : Type} [Host σ] {original : Memory} {s : Session σ} {actions : List Action}

/-- As long as reads from memory bring values only, each execution leaves a machine that holds
values, if it has found one. -/
theorem holdsValues_result {executions : List Execution}
    (hsub : ∀ e ∈ executions, e ∈ s.executions actions)
    (hloads : ∀ e ∈ executions, e.LoadsValue) :
    ∀ e ∈ executions, e.machine.HoldsValues original → e.result.1.HoldsValues original := by
  intro e he h
  obtain ⟨m, hm⟩ := exists_of_mem_executions (hsub e he)
  exact Execution.holdsValues_result h (fun o ho => Execution.isValue_operand h hm ho) (hloads e he)

/-- If the reads from memory that come before an execution have brought values only, the machine
that executes holds values. -/
theorem holdsValues_of_split (hs : s.machine.HoldsValues original)
    {before after : List Execution} {e : Execution}
    (hsplit : s.executions actions = before ++ e :: after)
    (hloads : ∀ e' ∈ before, e'.LoadsValue) : e.machine.HoldsValues original := by
  refine of_executions (Machine.HoldsValues.keptBetween original) hs hsplit ?_
  exact holdsValues_result (fun e' he' => hsplit ▸ List.mem_append_left _ he') hloads

/-- If the reads from memory in a history bring values only, the machine holds values after it. -/
theorem replay_holdsValues (hs : s.machine.HoldsValues original)
    (hloads : ∀ e ∈ s.executions actions, e.LoadsValue) :
    (s.replay actions).2.machine.HoldsValues original :=
  replay_of_executions (Machine.HoldsValues.keptBetween original) hs
    (holdsValues_result (fun _ he => he) hloads)

/-- Reads from memory are the only door for wide words. In a history of a loaded program in which
they bring values only, the machine holds values at all times, and every character written has the
code that it was asked for by. -/
theorem values_of_narrow_loads (s : Session σ) {image : List UInt8}
    (fits : image.length ≤ Memory.size) (actions : List Action)
    (hloads : ∀ e ∈ (s.load image).2.executions actions, e.LoadsValue) :
    (∀ past, past <+: actions →
      ((s.load image).2.replay past).2.machine.HoldsValues (.ofImage image fits)) ∧
      ∀ e ∈ (s.load image).2.executions actions, ∀ o,
        e.instruction.opcode = .out → e.instruction.operands[0]? = some o →
          ∃ c, e.result.2 = .emit c ∧ c.toNat = o.value.toNat := by
  rw [s.load_of_le fits] at hloads ⊢
  have hs := Machine.HoldsValues.boot (.ofImage image fits)
  constructor
  · rintro past ⟨rest, rfl⟩
    rw [executions_append] at hloads
    exact replay_holdsValues hs fun e he => hloads e (List.mem_append_left _ he)
  · intro e he o hop ho
    obtain ⟨before, after, hsplit⟩ := List.append_of_mem he
    have hmachine := holdsValues_of_split hs hsplit fun e' he' =>
      hloads e' (hsplit ▸ List.mem_append_left _ he')
    obtain ⟨m, hm⟩ := exists_of_mem_executions he
    exact Execution.result_of_out hop ho
      (Execution.isValue_operand hmachine hm (Vector.mem_of_getElem? ho))

/-- A program that writes to memory, reads the word again and prints it. -/
theorem values_of_narrow_loads_writeRead :
    let image : List UInt8 := [16, 0, 10, 0, 33, 0, 15, 0, 0, 128, 10, 0, 19, 0, 0, 128]
    let loaded := (fresh.load image).2
    ∃ fits : image.length ≤ Memory.size,
      (∀ e ∈ loaded.executions [.step, .step, .step], e.LoadsValue) ∧
        (loaded.replay [.step, .step]).2.machine.HoldsValues (.ofImage image fits) ∧
        ∃ e ∈ loaded.executions [.step, .step, .step],
          e.instruction.operands[0]? = some (.register 0 33) ∧ e.result.2 = .emit '!' := by
  intro image loaded
  have fits : image.length ≤ Memory.size := by decide
  have hloads : ∀ e ∈ loaded.executions [.step, .step, .step], e.LoadsValue := by decide +kernel
  obtain ⟨hholds, hout⟩ := values_of_narrow_loads fresh fits [.step, .step, .step] hloads
  have hprint : ∃ e ∈ loaded.executions [.step, .step, .step],
      e.instruction.opcode = .out ∧ e.instruction.operands[0]? = some (.register 0 33) := by
    decide +kernel
  obtain ⟨e, he, hop, ho⟩ := hprint
  obtain ⟨c, hc, hcode⟩ := hout e he _ hop ho
  obtain rfl : c = '!' := Char.toNat_inj.mp hcode
  exact ⟨fits, hloads, hholds _ ⟨[.step], rfl⟩, e, he, ho, hc⟩

/-- Arithmetic in a history of a loaded program. Sums and products are values. Other results need
not be, depending on the operands, and a wide one has its origin in a wide word that was read from
memory before. -/
theorem arithmetic_range (s : Session σ) {image : List UInt8} (fits : image.length ≤ Memory.size)
    (actions : List Action) {before after : List Execution} {e : Execution}
    (hsplit : (s.load image).2.executions actions = before ++ e :: after)
    (hop : e.instruction.opcode ∈ Opcode.arithmetic) {w : Word} (hw : e.stored? = some w) :
    (w.toNat ≤ 32767 ↔ e.instruction.YieldsValue) ∧
      (32767 < w.toNat → ∃ e' ∈ before, ¬e'.LoadsValue) := by
  have hiff := Execution.isValue_stored_iff hop hw
  refine ⟨hiff, fun hwide => ?_⟩
  by_contra hnone
  push Not at hnone
  rw [s.load_of_le fits] at hsplit
  have hmachine := holdsValues_of_split (.boot (.ofImage image fits)) hsplit hnone
  obtain ⟨m, hm⟩ := exists_of_mem_executions (hsplit ▸ List.mem_append_right _ List.mem_cons_self)
  refine absurd (hiff.mpr ?_) (Nat.not_le.mpr hwide)
  exact Instruction.yieldsValue_of_operands hop
    fun o ho => Execution.isValue_operand hmachine hm ho

/-- A program that reads the word of its own first operand and flips it. -/
theorem arithmetic_range_complement :
    let image : List UInt8 := [15, 0, 0, 128, 1, 0, 14, 0, 1, 128, 0, 128]
    ∃ before e after,
      (fresh.load image).2.executions [.step, .step] = before ++ e :: after ∧
        e.instruction.opcode ∈ Opcode.arithmetic ∧ e.stored? = some 65535 ∧
        ¬e.instruction.YieldsValue ∧ ∃ e' ∈ before, ¬e'.LoadsValue := by
  intro image
  have hlength : ((fresh.load image).2.executions [.step, .step]).length = 2 := by decide +kernel
  have hlast : ∀ e ∈ ((fresh.load image).2.executions [.step, .step])[1]?,
      e.instruction.opcode ∈ Opcode.arithmetic ∧ e.stored? = some 65535 := by decide +kernel
  obtain ⟨e₁, e₂, hboth⟩ := List.length_eq_two.mp hlength
  rw [hboth] at hlast
  obtain ⟨hop, hw⟩ := hlast e₂ rfl
  have hsplit : (fresh.load image).2.executions [.step, .step] = [e₁] ++ e₂ :: [] := hboth
  obtain ⟨hiff, horigin⟩ := arithmetic_range fresh (by decide) [.step, .step] hsplit hop hw
  exact ⟨[e₁], e₂, [], hsplit, hop, hw, fun h => absurd (hiff.mpr h) (by decide),
    horigin (by decide)⟩

/-- Bit 15 is set in the complement of a wide word. -/
theorem stored_complement_wide :
    ∃ e ∈ (fresh.load [15, 0, 0, 128, 1, 0, 14, 0, 1, 128, 0, 128]).2.executions [.step, .step],
      e.instruction.opcode = .not ∧ e.instruction.destination? = some 1 ∧
        e.stored? = some 65535 := by
  decide +kernel

end Session

end WordVM
