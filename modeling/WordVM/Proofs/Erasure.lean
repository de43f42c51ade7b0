import WordVM.Proofs.Checked

/-!
# Forgetting bounds

`erase` forgets the bounds that the types of operands, instructions and machines carry. On what it
leaves, the checked operations find what they look for: words of memory (`Checked.readWord_toList`,
`Checked.writeWord_toList`), operands (`Checked.decodeOperands_erase`) and registers
(`Machine.store_erase`). So instructions do not trap (`Machine.perform_erase`). The types are enough
for that, except for a call, which pushes a word only if the program counter is small enough.
-/

namespace WordVM

/-! ## Forgetting bounds -/

/-- The operand, with the index of its register as a number. -/
def Operand.erase : Operand → Checked.Operand
  | literal value => .literal value
  | register index value => .register index value

/-- What an operand word decodes to, with a literal zero for a bad word. -/
def Operand.decodeOrZero (registers : Registers) (raw : Word) : Operand :=
  match decode registers raw with
  | .ok o => o
  | .error _ => .literal 0

/-- A word decodes, or it is bad and has a fault. -/
theorem Operand.decode_cases (registers : Registers) (raw : Word) :
    (decode registers raw = .ok (decodeOrZero registers raw) ∧ wordFault? raw = none) ∨
      ∃ f, decode registers raw = .error f ∧ decodeOrZero registers raw = .literal 0 ∧
        wordFault? raw = some f := by
  unfold decodeOrZero wordFault?
  by_cases hbad : 32776 ≤ raw.toNat
  · rw [decode_invalid registers hbad, if_pos hbad]
    exact .inr ⟨_, rfl, rfl, rfl⟩
  · rw [if_neg hbad]
    cases hdecode : decode registers raw with
    | ok o => exact .inl ⟨rfl, rfl⟩
    | error f => exact absurd (decode_eq_error_iff.mp hdecode).1 hbad

/-- The instruction, with its operands as a list. -/
def Instruction.erase (i : Instruction) : Checked.Instruction :=
  ⟨i.pc, i.opcode, i.operands.toList.map Operand.erase⟩

/-- The machine, with memory and registers as lists. -/
def Machine.erase (m : Machine) : Checked.Machine where
  memory := m.memory.bytes.toList
  registers := m.registers.toList
  stack := m.stack
  pc := m.pc
  halted := m.halted
  fault := m.fault
  input := m.input
  pending := m.pending.map Operand.erase

namespace Checked

variable {α β : Type}

@[simp] theorem ok_bind (a : α) (f : α → Except Trap β) : (Except.ok a >>= f) = f a := rfl

/-! ## Operations that do not trap -/

theorem get_toList {n k : Nat} (xs : Vector α n) (f : α → β) (h : k < n) :
    get (xs.toList.map f) k = .ok (f xs[k]) := by
  simp [get, h]

theorem put_toList {n k : Nat} (xs : Vector α n) (h : k < n) (x : α) :
    put xs.toList k x = .ok (xs.set k x).toList := by
  simp [put, h, Vector.toList_set]

/-- A place for two elements splits a list. -/
theorem toList_eq_append {n i : Nat} (xs : Vector α n) (h : i + 2 ≤ n) :
    xs.toList = xs.toList.take i ++ xs[i] :: xs[i + 1] :: xs.toList.drop (i + 2) := by
  have hfirst : i < xs.toList.length := by rw [Vector.length_toList]; omega
  have hsecond : i + 1 < xs.toList.length := by rw [Vector.length_toList]; omega
  have hdrop := List.take_append_drop i xs.toList
  rw [List.drop_eq_getElem_cons hfirst, List.drop_eq_getElem_cons hsecond] at hdrop
  exact hdrop.symm

theorem slice?_toList {n i : Nat} (xs : Vector α n) (h : i + 2 ≤ n) :
    slice? xs.toList i (i + 2) = some [xs[i], xs[i + 1]] := by
  have htake : (xs.toList.take i).length = i := by simp; omega
  rw [slice?, if_pos (by rw [Vector.length_toList]; omega), List.extract_eq_take_drop,
    Nat.add_sub_cancel_left, toList_eq_append xs h, List.drop_left' htake]
  rfl

theorem copyTo_toList {n i : Nat} (xs : Vector α n) (h : i + 2 ≤ n) (x y : α) :
    copyTo xs.toList i (i + 2) [x, y] = .ok ((xs.set i x).set (i + 1) y).toList := by
  have htake : (xs.toList.take i).length = i := by simp; omega
  have hset : (xs.toList.set i x).set (i + 1) y =
      xs.toList.take i ++ [x, y] ++ xs.toList.drop (i + 2) := by
    conv_lhs => rw [toList_eq_append xs h]
    rw [List.set_append_right _ _ htake.le, List.set_append_right _ _ (by omega), htake]
    simp
  rw [copyTo, if_pos (by simp), Vector.toList_set, Vector.toList_set, hset]

/-- The word that an operand addresses begins and ends below the bound. -/
theorem byteOffset_lt (w : Word) : Word.byteOffset w + 2 < offsetBound := by
  have := w.toNat_lt
  show 2 * w.toNat + 2 < 2 ^ 32
  omega

theorem byteOffset_eq (w : Word) : byteOffset w = .ok (Word.byteOffset w) := by
  have hbound : w.toNat * 2 < offsetBound := by
    have := byteOffset_lt w
    rw [Word.byteOffset] at this
    omega
  rw [byteOffset, mulOffset, if_pos hbound, Word.byteOffset, Nat.mul_comm]

theorem add_eq (a b : Word) : add a b = .ok (Word.add a b) := by
  have := a.toNat_lt
  have := b.toNat_lt
  have hbound : a.toUInt32.toNat + b.toUInt32.toNat < 2 ^ 32 := by
    simp only [UInt16.toNat_toUInt32]
    omega
  simp only [add, addWide, if_pos hbound]
  rfl

/-- The largest product of two words is just below the bound. -/
theorem mul_eq (a b : Word) : mul a b = .ok (Word.mul a b) := by
  have ha : a.toNat ≤ 65535 := Nat.le_of_lt_succ a.toNat_lt
  have hb : b.toNat ≤ 65535 := Nat.le_of_lt_succ b.toNat_lt
  have hbound : a.toUInt32.toNat * b.toUInt32.toNat < 2 ^ 32 := by
    simp only [UInt16.toNat_toUInt32]
    exact Nat.lt_of_le_of_lt (Nat.mul_le_mul ha hb) (by decide)
  simp only [mul, mulWide, if_pos hbound]
  rfl

theorem readWord_toList (memory : Memory) {i : Nat} (h : i + 2 < offsetBound) :
    readWord memory.bytes.toList i = .ok (memory.read i) := by
  rw [readWord, addOffset, if_pos h, ok_bind, Memory.read]
  by_cases hsize : i + 2 ≤ Memory.size
  · rw [slice?_toList _ hsize, dif_pos hsize]
    rfl
  · have hslice : slice? memory.bytes.toList i (i + 2) = none := by simp [slice?, hsize]
    rw [hslice, dif_neg hsize]
    rfl

theorem writeWord_toList (memory : Memory) {i : Nat} (h : i + 2 < offsetBound) (w : Word) :
    writeWord memory.bytes.toList i w =
      .ok ((memory.write i w).map fun memory => memory.bytes.toList) := by
  rw [writeWord, addOffset, if_pos h, ok_bind, Memory.write]
  by_cases hsize : i + 2 ≤ Memory.size
  · rw [slice?_toList _ hsize, dif_pos hsize, Word.toBytes]
    simp only [copyTo_toList _ hsize, ok_bind]
    rfl
  · have hslice : slice? memory.bytes.toList i (i + 2) = none := by simp [slice?, hsize]
    rw [hslice, dif_neg hsize]
    rfl

theorem Operand.decode_toList (registers : Registers) (raw : Word) :
    decode registers.toList raw =
      (WordVM.Operand.decode registers raw).map WordVM.Operand.erase := by
  simp only [decode, WordVM.Operand.decode, Vector.getElem?_toList]
  -- Both look for a register with this index, one by its bound and the other by trying.
  generalize UInt16.toNat _ = index
  split
  · by_cases h : index < registerCount
    · rw [dif_pos h, Vector.getElem?_eq_getElem h]
      rfl
    · rw [dif_neg h, Vector.getElem?_eq_none (Nat.not_lt.mp h)]
      rfl
  · rfl

theorem readOperand_eq (memory : Memory) {pc slot : Nat} (h : pc < programCeiling) (op : Opcode)
    (hslot : slot < op.arity) :
    readOperand memory.bytes.toList pc (slot + 1) =
      .ok (.ok (WordVM.Instruction.operandWords memory pc h op)[slot]) := by
  -- Three operands at most follow the opcode, so none of these numbers comes near its bound.
  have hpc : pc < 0x8000 := h
  have harity := op.arity_le
  have hmul : (slot + 1) * 2 < offsetBound := by show _ < 2 ^ 32; omega
  have hadd : pc + (slot + 1) * 2 < offsetBound := by show _ < 2 ^ 32; omega
  have hread : pc + (slot + 1) * 2 + 2 < offsetBound := by show _ < 2 ^ 32; omega
  have hsize : pc + (slot + 1) * 2 + 2 ≤ Memory.size := by show _ ≤ 0xFFFE; omega
  rw [readOperand, mulOffset, if_pos hmul, ok_bind, addOffset, if_pos hadd, ok_bind,
    readWord_toList memory hread, Memory.read, dif_pos hsize]
  simp only [WordVM.Instruction.operandWords, Vector.getElem_ofFn, Nat.mul_comm 2]

/-- The loop that reads the last operand first finds all of them in program order. Of several bad
words it keeps the fault of the one nearest the opcode, which it reads last. -/
theorem decodeOperands_eq (memory : Memory) (registers : Registers) {pc slot : Nat}
    (h : pc < programCeiling) (op : Opcode) (hslot : slot ≤ op.arity) (operands : List Operand)
    (fault? : Option Fault) :
    let words := (WordVM.Instruction.operandWords memory pc h op).toList
    decodeOperands memory.bytes.toList registers.toList pc slot operands fault? =
      .ok (.ok
        ((words.take slot).map (fun raw => (WordVM.Operand.decodeOrZero registers raw).erase) ++
          operands.reverse,
        ((words.take slot).findSome? WordVM.Operand.wordFault?).or fault?)) := by
  intro words
  -- On the number of operands left to read. Those read before are in `operands`, last one first.
  induction slot generalizing operands fault? with
  | zero => simp [decodeOperands, pure, Except.pure]
  | succ slot ih =>
    have hlength : slot < words.length := by rwa [Vector.length_toList]
    have hread : readOperand memory.bytes.toList pc (slot + 1) = .ok (.ok words[slot]) :=
      readOperand_eq memory h op hslot
    have hdecode := Operand.decode_toList registers words[slot]
    rw [decodeOperands, hread, ok_bind, List.take_succ_eq_append_getElem hlength,
      List.map_append, List.append_assoc, List.findSome?_append, Option.or_assoc,
      List.findSome?_singleton]
    obtain ⟨hword, hnone⟩ | ⟨f, hword, hzero, hsome⟩ :=
      WordVM.Operand.decode_cases registers words[slot] <;> rw [hword] at hdecode
    · simp only [hdecode, Except.map, ih (Nat.le_of_lt hslot), List.reverse_concat, hnone,
        Option.none_or]
      rfl
    · simp only [hdecode, Except.map, ih (Nat.le_of_lt hslot), List.reverse_concat, hsome,
        Option.some_or, List.map_singleton, hzero]
      rfl

theorem width_eq (op : Opcode) : width op = .ok op.width := by cases op <;> rfl

/-- What lies at and behind a program counter below the ceiling has an offset. -/
theorem addOffset_eq {pc n : Nat} (h : pc < programCeiling) (hn : n ≤ 8) :
    addOffset pc n = .ok (pc + n) := by
  have hpc : pc < 0x8000 := h
  exact if_pos (by show pc + n < 2 ^ 32; omega)

theorem readWord_eq (memory : Memory) {pc : Nat} (h : pc < programCeiling) :
    readWord memory.bytes.toList pc = .ok (.ok (memory.word pc (word_in_bounds h))) := by
  have hpc : pc < 0x8000 := h
  rw [readWord_toList memory (by show pc + 2 < 2 ^ 32; omega), Memory.read,
    dif_pos (word_in_bounds h)]

theorem decodeOperands_erase (memory : Memory) (registers : Registers) {pc : Nat}
    (h : pc < programCeiling) (op : Opcode) :
    decodeOperands memory.bytes.toList registers.toList pc op.arity [] none =
      .ok (.ok ((WordVM.Instruction.decode memory registers pc h op).erase.operands,
        WordVM.Instruction.operandFault? memory registers pc h op)) := by
  have hoperands : (WordVM.Instruction.decode memory registers pc h op).operands.toList =
      (WordVM.Instruction.operandWords memory pc h op).toList.map
        (WordVM.Operand.decodeOrZero registers) := Vector.toList_map
  rw [decodeOperands_eq memory registers h op le_rfl, WordVM.Instruction.erase, hoperands,
    List.map_map, WordVM.Instruction.operandFault?_eq_findSome?,
    List.take_of_length_le (by rw [Vector.length_toList]), List.reverse_nil, List.append_nil,
    Option.or_none]
  rfl

end Checked

/-! ## Machines -/

@[simp] theorem Operand.value_erase (o : Operand) : o.erase.value = o.value := by cases o <;> rfl

@[simp] theorem Operand.register?_erase (o : Operand) :
    o.erase.register? = o.register?.map Fin.val := by
  cases o <;> rfl

namespace Machine

variable (m : Machine)

theorem store_erase (dest : Operand) (w : Word) :
    m.erase.store dest.erase w = .ok (m.store dest w).erase := by
  cases dest with
  | literal _ => rfl
  | register r _ =>
    have hput := Checked.put_toList m.registers r.isLt w
    simp only [Checked.Machine.store, Operand.register?_erase, Operand.register?, Option.map_some,
      erase, hput, Checked.ok_bind]
    rfl

theorem boot_erase (memory : Memory) : (boot memory).erase = .boot memory.bytes.toList := by
  rw [erase, boot, Vector.toList_replicate]
  rfl

theorem jump_erase (target : Operand) : m.erase.jump target.erase = .ok (m.jump target).erase := by
  rw [Checked.Machine.jump, Operand.value_erase, Checked.byteOffset_eq]
  rfl

theorem combine_erase (o : Vector Operand 3) {f : Word → Word → Except Checked.Trap Word} {w : Word}
    (h : f o[1].value o[2].value = .ok w) :
    m.erase.combine (o.toList.map Operand.erase) f = .ok ((m.store o[0] w).erase, .next) := by
  simp (disch := decide) only [Checked.Machine.combine, Checked.get_toList, Checked.ok_bind,
    Operand.value_erase, h, store_erase]
  rfl

theorem takeInput?_erase :
    m.erase.takeInput? = m.takeInput?.map fun taken => (taken.1, taken.2.erase) := by
  obtain ⟨memory, registers, stack, pc, halted, fault, _ | ⟨c, rest⟩, pending⟩ := m <;> rfl

/-- No instruction traps on a machine whose program counter is the offset of a word address. -/
theorem perform_erase (i : Instruction) (h : m.pc ≤ 131070) :
    m.erase.perform i.erase = .ok ((m.perform i).1.erase, (m.perform i).2) := by
  obtain ⟨pc, op, o⟩ := i
  cases op <;> simp only [Checked.Machine.perform, Instruction.erase, perform]
  case halt | noop => rfl
  case eq | gt | and | or =>
    refine m.combine_erase o ?_
    rfl
  case add => exact m.combine_erase o (Checked.add_eq ..)
  case mult => exact m.combine_erase o (Checked.mul_eq ..)
  -- The operands are all there. What is left are the branches, and what they do besides.
  all_goals
    simp (disch := decide) only [Checked.get_toList, Checked.ok_bind, Operand.value_erase,
      Operand.register?_erase, store_erase, jump_erase, Checked.byteOffset_eq]
  case set | push | jump | not | out => rfl
  case jumpIf | jumpUnless => split <;> rfl
  case pop =>
    rw [show m.erase.stack = m.stack from rfl]
    rcases o[0].register? with _ | r <;> rcases m.stack.pop? with _ | ⟨w, stack⟩
    · rfl
    · rfl
    · rfl
    · have hput : Checked.put m.erase.registers r w = .ok (m.registers.set r w).toList :=
        Checked.put_toList m.registers r.isLt w
      simp only [Option.map_some, hput, Checked.ok_bind]
      rfl
  case mod =>
    rw [Option.isSome_map]
    split
    · by_cases hzero : o[2].value = 0
      · simp only [if_pos hzero]
        rfl
      · simp only [if_neg hzero]
        exact m.combine_erase o (if_neg hzero)
    · rfl
  case readMem =>
    rw [Option.isSome_map]
    split
    · have hread : Checked.readWord m.erase.memory (Word.byteOffset o[1].value) =
          .ok (m.memory.read o[1].byteOffset) :=
        Checked.readWord_toList m.memory (Checked.byteOffset_lt _)
      rw [hread, Checked.ok_bind]
      cases m.memory.read o[1].byteOffset <;> rfl
    · rfl
  case writeMem =>
    have hwrite : Checked.writeWord m.erase.memory (Word.byteOffset o[0].value) o[1].value =
        .ok ((m.memory.write o[0].byteOffset o[1].value).map fun memory => memory.bytes.toList) :=
      Checked.writeWord_toList m.memory (Checked.byteOffset_lt _) _
    rw [hwrite, Checked.ok_bind]
    cases m.memory.write o[0].byteOffset o[1].value <;> rfl
  case call =>
    -- This is the one check that no type decides.
    have hnarrow : Checked.narrow (m.erase.pc / 2) = .ok (.ofNat (m.pc / 2)) :=
      if_pos (by show m.pc / 2 < 2 ^ 16; omega)
    simp only [hnarrow, Checked.Machine.jump, Operand.value_erase, Checked.byteOffset_eq,
      Checked.ok_bind, pure_bind]
    rfl
  case ret =>
    rw [show m.erase.stack = m.stack from rfl]
    rcases m.stack.pop? with _ | ⟨w, stack⟩ <;> rfl
  case input =>
    rw [takeInput?_erase]
    rcases m.takeInput? with _ | ⟨w, m'⟩
    · rfl
    · simp only [Option.map_some, store_erase, Checked.ok_bind]
      rfl

/-- The bound on the program counter is sharp: two bytes further on, a call loses a bit. -/
example : ({ Checked.Machine.boot [] with pc := 131072 }).perform ⟨131068, .call, [.literal 0]⟩ =
    .error .narrowing := rfl

end Machine

end WordVM
