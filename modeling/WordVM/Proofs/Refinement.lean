import WordVM.Proofs.BitField
import WordVM.Proofs.Host.Reliable
import WordVM.Proofs.WordMachine

/-!
# The byte machine refines the word machine

`Refines` relates a machine over bytes to a machine over words: the byte program counter is twice
the word program counter, each word address holds the word that lies at twice that byte offset,
and all else is the same. Each of the twenty-two opcodes preserves it (`Refines.perform`), so does a
fetch with the execution that follows (`Refines.runOne`), and hence every step (`Refines.advance`).

`replay_refines_wordMachine` is the result for whole histories of a session on a reliable host.
The description has to be read with two provisos, which `not_refines_literal` shows to be needed.
-/

namespace WordVM

namespace WordMachine

/-- An error as a fault: word addresses become byte offsets. -/
def Error.toFault : Error → Fault
  | .badOperand word => .invalidNumber word
  | .badOpcode word => .invalidOpcode word
  | .divisionByZero p => .divideByZero (2 * p)
  | .noSuchAddress address => .addressOutOfRange (2 * address)

/-- A machine over bytes stands in the same state as a machine over words. -/
structure Refines (m : Machine) (s : State) : Prop where
  pc : m.pc = 2 * s.p
  memory : ∀ a : Fin addressCount, m.memory.read (2 * a) = .ok (s.memory a)
  registers : ∀ i : Fin 8, m.registers[i] = s.registers i
  stack : m.stack.words = s.stack
  halted : m.halted = s.halted
  fault : m.fault = s.error.map Error.toFault
  input : m.input = s.input
  pending : m.pending = s.pending

variable {m : Machine} {s : State}

/-! ## Reading memory -/

theorem Refines.read_eq (h : Refines m s) (hp : s.p < ceiling) (k : Fin 4) :
    m.memory.read (m.pc + 2 * k) = .ok (s.wordAfter hp k) := by
  rw [h.pc, show 2 * s.p + 2 * k = 2 * (s.p + k) by omega]
  exact h.memory ⟨s.p + k, _⟩

theorem Refines.word_eq (h : Refines m s) (hp : s.p < ceiling) (k : Fin 4) {i : Nat}
    (hi : i = m.pc + 2 * k) (hsize : i + 2 ≤ Memory.size) :
    m.memory.word i hsize = s.wordAfter hp k := by
  subst hi
  exact (m.memory.word_eq_of_read (h.read_eq hp k) hsize).symm

/-- Classifying an operand word by its range gives what its bit fields give. -/
theorem Refines.decode_eq (h : Refines m s) (w : Word) :
    Operand.decode m.registers w =
      match operand? s.registers w with
      | some o => .ok o
      | none => .error (.invalidNumber w) := by
  by_cases hlit : w.toNat ≤ 32767
  · rw [operand?, if_pos hlit]
    exact Operand.decode_literal _ (by omega)
  · by_cases hreg : w.toNat ≤ 32775
    · rw [operand?, if_neg hlit, dif_pos hreg]
      have hi : w.toNat - 32768 < 8 := by omega
      rw [Operand.decode_register m.registers ⟨w.toNat - 32768, hi⟩ (by dsimp only; omega)]
      exact congrArg (fun v => Except.ok (Operand.register _ v)) (h.registers _)
    · rw [operand?, if_neg hlit, dif_neg hreg]
      exact Operand.decode_invalid _ (by omega)

/-- The operands of an instruction are the ones that its words stand for, or zero. -/
theorem Refines.getElem_decode (h : Refines m s) (hp : s.p < ceiling) (hpc : m.pc < programCeiling)
    (op : Opcode) (k : Nat) (hk : k < op.arity) (j : Fin 4) (hj : j.val = k + 1) :
    (Instruction.decode m.memory m.registers m.pc hpc op).operands[k] = s.operand hp j := by
  simp only [Instruction.decode, Instruction.operandWords, Vector.getElem_map, Vector.getElem_ofFn,
    h.decode_eq, h.word_eq hp j (show m.pc + 2 * (k + 1) = m.pc + 2 * j by rw [hj]),
    State.operand]
  cases operand? s.registers (s.wordAfter hp j) <;> rfl

private theorem findSome?_decode (h : Refines m s) (words : List Word) :
    (words.findSome? fun raw =>
      match Operand.decode m.registers raw with
      | .ok _ => none
      | .error f => some f) =
      (words.find? fun w => (operand? s.registers w).isNone).map .invalidNumber := by
  induction words with
  | nil => rfl
  | cons w rest ih =>
    rw [List.findSome?_cons, List.find?_cons, h.decode_eq, ih]
    cases operand? s.registers w <;> rfl

theorem Refines.operandWords_eq (h : Refines m s) (hp : s.p < ceiling)
    (hpc : m.pc < programCeiling) (op : Opcode) :
    (Instruction.operandWords m.memory m.pc hpc op).toList =
      [s.wordAfter hp 1, s.wordAfter hp 2, s.wordAfter hp 3].take op.arity := by
  have harity := op.arity_le
  apply List.ext_getElem
  · simp [harity]
  · intro k hk _
    have hk' : k < op.arity := by simpa using hk
    simp only [Vector.getElem_toList, Instruction.operandWords, Vector.getElem_ofFn,
      List.getElem_take]
    obtain rfl | rfl | rfl : k = 0 ∨ k = 1 ∨ k = 2 := by omega
    · exact h.word_eq hp 1 rfl _
    · exact h.word_eq hp 2 rfl _
    · exact h.word_eq hp 3 rfl _

/-- The fault of an instruction tells its leading bad word. -/
theorem Refines.operandFault?_eq (h : Refines m s) (hp : s.p < ceiling)
    (hpc : m.pc < programCeiling) (op : Opcode) :
    Instruction.operandFault? m.memory m.registers m.pc hpc op =
      (s.badWord? hp op.arity).map .invalidNumber := by
  rw [Instruction.operandFault?, h.operandWords_eq hp]
  exact findSome?_decode h _

/-! ## Words and characters -/

private theorem ofNat_toNat_eq {v w : Word} {n : Nat} (h : v.toNat = n) (hw : w = UInt16.ofNat n) :
    v = w := by
  rw [hw, ← h, UInt16.ofNat_toNat]

theorem add_eq (v w : Word) : Word.add v w = UInt16.ofNat ((v.toNat + w.toNat) % 32768) :=
  ofNat_toNat_eq (Word.toNat_add v w) rfl

theorem mul_eq (v w : Word) : Word.mul v w = UInt16.ofNat (v.toNat * w.toNat % 32768) :=
  ofNat_toNat_eq (Word.toNat_mul v w) rfl

theorem ofBool_beq_eq (v w : Word) :
    Word.ofBool (v == w) = if v.toNat = w.toNat then 1 else 0 := by
  simp only [Word.ofBool, beq_iff_eq, UInt16.toNat_inj]

theorem ofBool_lt_eq (v w : Word) :
    Word.ofBool (decide (v < w)) = if v.toNat < w.toNat then 1 else 0 := by
  simp only [Word.ofBool, decide_eq_true_eq, UInt16.lt_iff_toNat_lt]

theorem mod_eq (v w : Word) : v % w = UInt16.ofNat (v.toNat % w.toNat) :=
  ofNat_toNat_eq (UInt16.toNat_mod v w) rfl

theorem eq_zero_iff (w : Word) : w = 0 ↔ w.toNat = 0 := UInt16.toNat_inj.symm

theorem toChar_eq_charOf (w : Word) : Word.toChar w = charOf w := by
  have hlt := w.toNat_lt
  rw [Word.toChar, charOf]
  by_cases h : 0xD800 ≤ w.toNat ∧ w.toNat ≤ 0xDFFF
  · rw [if_pos h, if_neg]
    rintro (hvalid | hvalid) <;> omega
  -- A code is valid below the surrogates and above them.
  · rw [if_neg h, if_pos]
    by_cases hlow : w.toNat < 0xD800
    · exact .inl hlow
    · exact .inr ⟨by omega, by omega⟩

theorem code_eq_standard (c : Char) : Input.code c = Reading.standard.code c := by
  simp only [Input.code, Reading.standard]
  split
  · simp
  · simp
  · simp
  · next hlf hcr hspace =>
    rw [if_neg (not_or.mpr ⟨hlf, hcr⟩), if_neg hspace]
    exact ofNat_toNat_eq (Word.toNat_wrap _) rfl

theorem normalize_eq_withoutReturns (text : List Char) :
    Input.normalize text = withoutReturns text := by
  fun_induction Input.normalize text with
  | case1 => rfl
  | case2 rest ih => simp [withoutReturns, ih]
  | case3 c rest hcrlf ih =>
    rw [withoutReturns, if_neg, ih]
    intro hpair
    obtain ⟨rest, rfl⟩ := List.head?_eq_some_iff.mp hpair.2
    exact hcrlf rest hpair.1 rfl

/-! ## Operations on the state -/

theorem Refines.store (h : Refines m s) (dest : Operand) (w : Word) :
    Refines (m.store dest w) (s.assign dest w) := by
  cases dest with
  | literal _ => exact h
  | register i _ =>
    refine ⟨h.pc, h.memory, fun j => ?_, h.stack, h.halted, h.fault, h.input, h.pending⟩
    -- Both sides put `w` at `i` and leave the other registers alone.
    have hj := h.registers j
    simp only [Machine.store, Operand.register?, State.assign, Fin.getElem_fin,
      Vector.getElem_set, Fin.ext_iff] at hj ⊢
    simp [hj, eq_comm]

theorem Refines.record (h : Refines m s) (e : Error) :
    Refines (m.record e.toFault) (s.fail e).2 := by
  refine ⟨h.pc, h.memory, h.registers, h.stack, h.halted, ?_, h.input, h.pending⟩
  have hfault := h.fault
  simp only [Machine.record, State.fail, hfault]
  cases s.error <;> rfl

@[simp] theorem emitted_assign (s : State) (dest : Operand) (w : Word) :
    (s.assign dest w).emitted = s.emitted := by
  cases dest <;> rfl

/-- The word addresses are those that a whole word fits at. -/
theorem fits_iff {a : Nat} : 2 * a + 2 ≤ Memory.size ↔ a < addressCount := by
  show 2 * a + 2 ≤ 0xFFFE ↔ a < 32767
  omega

theorem read_outside {memory : Memory} {o : Operand} (h : ¬ o.value.toNat < addressCount) :
    memory.read o.byteOffset = .error (.addressOutOfRange (2 * o.value.toNat)) :=
  dif_neg (fits_iff.not.mpr h)

theorem write_outside {memory : Memory} {o : Operand} (h : ¬ o.value.toNat < addressCount)
    (w : Word) : memory.write o.byteOffset w = .error (.addressOutOfRange (2 * o.value.toNat)) :=
  dif_neg (fits_iff.not.mpr h)

theorem Refines.write (h : Refines m s) {a : Nat} (ha : a < addressCount) (w : Word) :
    ∃ memory, m.memory.write (2 * a) w = .ok memory ∧
      Refines { m with memory } { s with memory := fun x => if x = a then w else s.memory x } := by
  have hsize : 2 * a + 2 ≤ Memory.size := fits_iff.mpr ha
  obtain ⟨memory, hwrite⟩ : ∃ memory, m.memory.write (2 * a) w = .ok memory := by
    rw [Memory.write, dif_pos hsize]
    exact ⟨_, rfl⟩
  refine ⟨memory, hwrite, h.pc, fun x => ?_, h.registers, h.stack, h.halted, h.fault, h.input,
    h.pending⟩
  -- Words at different word addresses share no byte.
  by_cases hx : x.val = a
  · simp only [if_pos hx]
    rw [hx]
    exact Memory.read_write hwrite
  · simp only [if_neg hx]
    rw [Memory.read_write_of_disjoint hwrite (by omega)]
    exact h.memory x

/-! ## Instructions -/

/-- A step over bytes came to what a step over words came to, which had written `emitted`
before. -/
structure Matches (emitted : List Char) (result : Outcome × Machine × List Char)
    (expected : Outcome × State) : Prop where
  outcome : result.1 = expected.1
  refines : Refines result.2.1 expected.2
  emitted : expected.2.emitted = emitted ++ result.2.2

private theorem Matches.next {s₀ : State} (h : Refines m s) (hemitted : s.emitted = s₀.emitted) :
    Matches s₀.emitted (Machine.conclude (m, .next)) (.next, s) :=
  ⟨rfl, h, by simp [Machine.conclude, hemitted]⟩

private theorem Matches.fault (h : Refines m s) (e : Error) :
    Matches s.emitted (Machine.conclude (m, .fault e.toFault)) (s.fail e) :=
  ⟨rfl, h.record e, by simp [Machine.conclude, State.fail]⟩

private theorem Refines.halt (h : Refines m s) :
    Matches s.emitted (Machine.conclude ({ m with halted := true }, .exit))
      (.exit, { s with halted := true }) :=
  ⟨rfl, ⟨h.pc, h.memory, h.registers, h.stack, rfl, h.fault, h.input, h.pending⟩, by
    simp [Machine.conclude]⟩

private theorem Refines.jump (h : Refines m s) (target : Operand) :
    Refines (m.jump target) { s with p := target.value.toNat } :=
  ⟨rfl, h.memory, h.registers, h.stack, h.halted, h.fault, h.input, h.pending⟩

private theorem Refines.withInput (h : Refines m s) (input : List Char) :
    Refines { m with input } { s with input } :=
  ⟨h.pc, h.memory, h.registers, h.stack, h.halted, h.fault, rfl, h.pending⟩

private theorem Refines.withStack (h : Refines m s) (stack : Stack) {words : List Word}
    (hstack : stack.words = words) : Refines { m with stack } { s with stack := words } :=
  ⟨h.pc, h.memory, h.registers, hstack, h.halted, h.fault, h.input, h.pending⟩

/-! Instructions that do one of several things, each against what the description says. -/

private theorem Refines.pop (h : Refines m s) (p : Nat) (o : Vector Operand Opcode.pop.arity) (b c : Operand) :
    Matches s.emitted (Machine.conclude (m.perform ⟨2 * p, .pop, o⟩))
      (s.execute .standard p 3 o[0] b c) := by
  have hstack := h.stack
  simp only [Machine.perform, State.execute, Stack.pop?]
  cases hdest : o[0] with
  | literal v => exact .next h rfl
  | register i v =>
    cases htop : m.stack.words with
    | nil =>
      rw [htop] at hstack
      simp only [Operand.register?, ← hstack]
      exact .next h rfl
    | cons top rest =>
      rw [htop] at hstack
      simp only [Operand.register?, ← hstack]
      exact .next ((h.withStack ⟨rest⟩ rfl).store (.register i v) top) (emitted_assign ..)

private theorem Refines.mod (h : Refines m s) (p : Nat) (o : Vector Operand Opcode.mod.arity) :
    Matches s.emitted (Machine.conclude (m.perform ⟨2 * p, .mod, o⟩))
      (s.execute .standard p 11 o[0] o[1] o[2]) := by
  simp only [Machine.perform, State.execute, eq_zero_iff, mod_eq]
  cases hdest : o[0] with
  | literal v => exact .next h rfl
  | register i v =>
    simp only [Operand.register?, Option.isSome_some, if_true]
    split
    · exact .fault h (.divisionByZero p)
    · exact .next (h.store _ _) (emitted_assign ..)

private theorem Refines.readMem (h : Refines m s) (p : Nat) (o : Vector Operand Opcode.readMem.arity) (c : Operand) :
    Matches s.emitted (Machine.conclude (m.perform ⟨2 * p, .readMem, o⟩))
      (s.execute .standard p 15 o[0] o[1] c) := by
  simp only [Machine.perform, State.execute]
  cases hdest : o[0] with
  | literal v => exact .next h rfl
  | register i v =>
    simp only [Operand.register?, Option.isSome_some, if_true]
    by_cases haddr : o[1].value.toNat < addressCount
    · have hread : m.memory.read o[1].byteOffset = _ := h.memory ⟨_, haddr⟩
      simp only [hread, dif_pos haddr]
      exact .next (h.store _ _) (emitted_assign ..)
    · simp only [read_outside haddr, dif_neg haddr]
      exact .fault h (.noSuchAddress _)

private theorem Refines.writeMem (h : Refines m s) (p : Nat) (o : Vector Operand Opcode.writeMem.arity) (c : Operand) :
    Matches s.emitted (Machine.conclude (m.perform ⟨2 * p, .writeMem, o⟩))
      (s.execute .standard p 16 o[0] o[1] c) := by
  simp only [Machine.perform, State.execute]
  by_cases haddr : o[0].value.toNat < addressCount
  · obtain ⟨memory, hwrite, hrefines⟩ := h.write haddr o[1].value
    have hwrite' : m.memory.write o[0].byteOffset o[1].value = .ok memory := hwrite
    simp only [hwrite', if_pos haddr]
    exact .next hrefines rfl
  · simp only [write_outside haddr, if_neg haddr]
    exact .fault h (.noSuchAddress _)

private theorem Refines.ret (h : Refines m s) (p : Nat) (o : Vector Operand Opcode.ret.arity) (a b c : Operand) :
    Matches s.emitted (Machine.conclude (m.perform ⟨2 * p, .ret, o⟩))
      (s.execute .standard p 18 a b c) := by
  have hstack := h.stack
  simp only [Machine.perform, State.execute, Stack.pop?]
  cases htop : m.stack.words with
  | nil =>
    simp only [← hstack, htop]
    exact ⟨rfl, ⟨h.pc, h.memory, h.registers, htop, rfl, h.fault, h.input, h.pending⟩, by
      simp [Machine.conclude]⟩
  | cons top rest =>
    simp only [← hstack, htop]
    exact .next ((h.withStack ⟨rest⟩ rfl).jump (.literal top)) rfl

private theorem Refines.readInput (h : Refines m s) (p : Nat) (o : Vector Operand Opcode.input.arity)
    (b c : Operand) :
    Matches s.emitted (Machine.conclude (m.perform ⟨2 * p, .input, o⟩))
      (s.execute .standard p 20 o[0] b c) := by
  have hinput := h.input
  simp only [Machine.perform, State.execute, Machine.takeInput?]
  cases hfirst : m.input with
  | nil =>
    simp only [← hinput, hfirst]
    exact ⟨rfl, ⟨h.pc, h.memory, h.registers, h.stack, h.halted, h.fault, rfl, rfl⟩, by
      simp [Machine.conclude]⟩
  | cons first rest =>
    simp only [← hinput, hfirst, code_eq_standard]
    exact .next ((h.withInput rest).store _ _) (emitted_assign ..)

/-- Each opcode does to a machine over bytes what the description says of its number. -/
theorem Refines.perform (h : Refines m s) (p : Nat) (op : Opcode) (o : Vector Operand op.arity)
    (a b c : Operand) (ha : ∀ hk : 0 < op.arity, o[0] = a) (hb : ∀ hk : 1 < op.arity, o[1] = b)
    (hc : ∀ hk : 2 < op.arity, o[2] = c) :
    Matches s.emitted (Machine.conclude (m.perform ⟨2 * p, op, o⟩))
      (s.execute .standard p op.code.toNat a b c) := by
  cases op with
  | halt => exact h.halt
  | set =>
    obtain rfl := ha (by decide)
    obtain rfl := hb (by decide)
    exact .next (h.store _ _) (emitted_assign ..)
  | push =>
    obtain rfl := ha (by decide)
    exact .next (h.withStack _ (congrArg (o[0].value :: ·) h.stack)) rfl
  | pop =>
    obtain rfl := ha (by decide)
    exact h.pop p o b c
  | eq =>
    obtain rfl := ha (by decide)
    obtain rfl := hb (by decide)
    obtain rfl := hc (by decide)
    simp only [Machine.perform, ofBool_beq_eq]
    exact .next (h.store _ _) (emitted_assign ..)
  | gt =>
    obtain rfl := ha (by decide)
    obtain rfl := hb (by decide)
    obtain rfl := hc (by decide)
    simp only [Machine.perform, gt_iff_lt, ofBool_lt_eq]
    exact .next (h.store _ _) (emitted_assign ..)
  | jump =>
    obtain rfl := ha (by decide)
    exact .next (h.jump _) rfl
  | jumpIf =>
    obtain rfl := ha (by decide)
    obtain rfl := hb (by decide)
    simp only [Machine.perform, State.execute, Opcode.code, UInt16.reduceToNat, eq_zero_iff]
    split
    · exact .next h rfl
    · exact .next (h.jump _) rfl
  | jumpUnless =>
    obtain rfl := ha (by decide)
    obtain rfl := hb (by decide)
    simp only [Machine.perform, State.execute, Opcode.code, UInt16.reduceToNat, eq_zero_iff]
    split
    · exact .next (h.jump _) rfl
    · exact .next h rfl
  | add =>
    obtain rfl := ha (by decide)
    obtain rfl := hb (by decide)
    obtain rfl := hc (by decide)
    simp only [Machine.perform, add_eq]
    exact .next (h.store _ _) (emitted_assign ..)
  | mult =>
    obtain rfl := ha (by decide)
    obtain rfl := hb (by decide)
    obtain rfl := hc (by decide)
    simp only [Machine.perform, mul_eq]
    exact .next (h.store _ _) (emitted_assign ..)
  | mod =>
    obtain rfl := ha (by decide)
    obtain rfl := hb (by decide)
    obtain rfl := hc (by decide)
    exact h.mod p o
  | and =>
    obtain rfl := ha (by decide)
    obtain rfl := hb (by decide)
    obtain rfl := hc (by decide)
    exact .next (h.store _ _) (emitted_assign ..)
  | or =>
    obtain rfl := ha (by decide)
    obtain rfl := hb (by decide)
    obtain rfl := hc (by decide)
    exact .next (h.store _ _) (emitted_assign ..)
  | not =>
    obtain rfl := ha (by decide)
    obtain rfl := hb (by decide)
    exact .next (h.store _ _) (emitted_assign ..)
  | readMem =>
    obtain rfl := ha (by decide)
    obtain rfl := hb (by decide)
    exact h.readMem p o c
  | writeMem =>
    obtain rfl := ha (by decide)
    obtain rfl := hb (by decide)
    exact h.writeMem p o c
  | call =>
    obtain rfl := ha (by decide)
    -- The program counter is already past the call, where it goes on after a return.
    have hreturn : m.pc / 2 = s.p := by
      have := h.pc
      omega
    simp only [Machine.perform, State.execute, Opcode.code, UInt16.reduceToNat, hreturn]
    exact .next ((h.withStack _ (congrArg (UInt16.ofNat s.p :: ·) h.stack)).jump o[0]) rfl
  | ret => exact h.ret p o a b c
  | out =>
    obtain rfl := ha (by decide)
    simp only [Machine.perform, toChar_eq_charOf]
    exact ⟨rfl, ⟨h.pc, h.memory, h.registers, h.stack, h.halted, h.fault, h.input, h.pending⟩, rfl⟩
  | input =>
    obtain rfl := ha (by decide)
    exact h.readInput p o b c
  | noop => exact .next h rfl

/-! ## Cycles and steps -/

private theorem operandCount_code (op : Opcode) : operandCount op.code.toNat = some op.arity := by
  cases op <;> rfl

private theorem operandCount_of_ofCode?_eq_none {w : Word} (h : Opcode.ofCode? w = none) :
    operandCount w.toNat = none := by
  unfold Opcode.ofCode? at h
  unfold operandCount
  split at h <;> simp_all

/-- Moving past an instruction takes note of its leading bad operand word on both sides. -/
private theorem Refines.move (h : Refines m s) (n : Nat) (bad? : Option Word) :
    Refines
      { m with pc := m.pc + 2 * (1 + n), fault := m.fault.or (bad?.map .invalidNumber) }
      { s with p := s.p + 1 + n, error := s.error.or (bad?.map .badOperand) } := by
  refine ⟨by have := h.pc; dsimp only; omega, h.memory, h.registers, h.stack, h.halted, ?_,
    h.input, h.pending⟩
  simp only [h.fault]
  cases s.error <;> cases bad? <;> rfl

theorem Refines.pc_lt_iff (h : Refines m s) : m.pc < programCeiling ↔ s.p < ceiling := by
  rw [h.pc]
  show 2 * s.p < 0x8000 ↔ s.p < 16384
  omega

theorem Refines.runOne (h : Refines m s) : Matches s.emitted m.runOne (s.cycle .standard) := by
  by_cases hp : s.p < ceiling
  · have hpc := h.pc_lt_iff.mpr hp
    have hread : m.memory.read m.pc = .ok (s.wordAfter hp 0) := h.read_eq hp 0
    rw [State.cycle, dif_pos hp]
    cases hop : Opcode.ofCode? (s.wordAfter hp 0) with
    | none =>
      -- The fault is recorded when the program counter is past the word.
      have hmoved : Refines { m with pc := m.pc + 2 } { s with p := s.p + 1 } :=
        ⟨by have := h.pc; dsimp only; omega, h.memory, h.registers, h.stack, h.halted, h.fault,
          h.input, h.pending⟩
      simp only [Machine.runOne, Machine.fetch_of_ofCode?_eq_none hpc hread hop,
        operandCount_of_ofCode?_eq_none hop]
      exact ⟨rfl, hmoved.record (.badOpcode _), by simp [State.fail]⟩
    | some op =>
      simp only [Machine.runOne, Machine.fetch_of_ofCode?_eq_some hpc hread hop,
        ← Opcode.code_of_ofCode? hop, operandCount_code, h.operandFault?_eq hp]
      -- What the instruction calls its offset is twice the word address it lies at.
      rw [show Instruction.decode m.memory m.registers m.pc hpc op =
        ⟨2 * s.p, op, (Instruction.decode m.memory m.registers m.pc hpc op).operands⟩ by
          rw [← h.pc]; rfl]
      exact (h.move op.arity (s.badWord? hp op.arity)).perform s.p op _ _ _ _
        (fun hk => h.getElem_decode hp hpc op 0 hk 1 rfl)
        (fun hk => h.getElem_decode hp hpc op 1 hk 2 rfl)
        (fun hk => h.getElem_decode hp hpc op 2 hk 3 rfl)
  · have hpc := Nat.not_lt.mp (h.pc_lt_iff.not.mpr hp)
    rw [State.cycle, dif_neg hp]
    simp only [Machine.runOne, Machine.fetch_of_le hpc]
    exact h.halt

theorem Refines.stopped_eq (h : Refines m s) : m.stopped = (s.halted || s.error.isSome) := by
  rw [Machine.stopped, h.halted, h.fault, Option.isSome_map]

/-- One step over bytes is one step over words. -/
theorem Refines.advance (h : Refines m s) : Matches s.emitted m.advance (s.step .standard) := by
  rw [Machine.advance, State.step, h.stopped_eq]
  split
  · exact ⟨rfl, h, by simp⟩
  · rw [Machine.resume?, h.pending]
    cases hpending : s.pending with
    | none => exact h.runOne
    | some dest =>
      rw [Machine.takeInput?, h.input]
      cases hinput : s.input with
      | nil => exact ⟨rfl, h, by simp⟩
      | cons c rest =>
        have hresumed : Refines { m with input := rest, pending := none }
            { s with pending := none, input := rest } :=
          ⟨h.pc, h.memory, h.registers, h.stack, h.halted, h.fault, rfl, rfl⟩
        have hrun := (hresumed.store dest (Input.code c)).runOne
        rw [emitted_assign, code_eq_standard] at hrun
        simpa only [Option.map_some, code_eq_standard] using hrun

/-! ## Loading and histories -/

theorem Refines.receive (h : Refines m s) (text : String) :
    Refines (m.receive text) (s.receive text) := by
  refine ⟨h.pc, h.memory, h.registers, h.stack, h.halted, h.fault, ?_, h.pending⟩
  simp only [Machine.receive, State.receive, h.input, normalize_eq_withoutReturns]

/-- A loaded machine holds the words of its image, each of them low byte first. -/
theorem refines_boot (image : List UInt8) (fits : image.length ≤ Memory.size) :
    Refines (.boot (.ofImage image fits)) (.boot image) := by
  refine ⟨rfl, fun a => ?_, fun i => ?_, rfl, rfl, rfl, rfl, rfl⟩
  · have hsize : 2 * a.val + 2 ≤ Memory.size := fits_iff.mpr a.isLt
    simp only [Machine.boot, Memory.read, dif_pos hsize, Memory.word, Memory.getElem_ofImage]
    exact congrArg _ (ofNat_toNat_eq (Word.toNat_ofBytes _ _) rfl)
  · simp [Machine.boot, State.boot]

variable {σ : Type} [Host σ] {kept : σ → List UInt8}

/-- A session stands where the word machine does, whose output its host has kept after what it
had kept before. -/
structure SessionRefines (kept : σ → List UInt8) (before : List UInt8) (session : Session σ)
    (s : State) : Prop where
  machine : Refines session.machine s
  output : kept session.host = before ++ s.emitted.flatMap String.utf8EncodeChar

theorem replay_refines {before : List UInt8} {session : Session σ}
    (hreliable : Host.Reliable kept session.host) (h : SessionRefines kept before session s)
    (actions : List Session.Action) :
    (session.replay actions).1 = (s.replay .standard actions).1 ∧
      SessionRefines kept before (session.replay actions).2 (s.replay .standard actions).2 := by
  induction actions generalizing session s with
  | nil => exact ⟨rfl, h⟩
  | cons action rest ih =>
    cases action with
    | send text =>
      refine ih (hreliable.log _) ⟨h.machine.receive text, ?_⟩
      exact (hreliable.kept_log _).trans h.output
    | step =>
      -- The session does what its machine does by itself, and that matches the word machine.
      have hmirrors := Session.advance_mirrors hreliable
      have hmatches := h.machine.advance
      have hnext : SessionRefines kept before session.advance.2 (s.step .standard).2 := by
        refine ⟨hmirrors.machine_eq ▸ hmatches.refines, ?_⟩
        rw [hmirrors.kept_eq, h.output, hmatches.emitted, List.flatMap_append, List.append_assoc]
      obtain ⟨houtcomes, hrest⟩ := ih hmirrors.good_host hnext
      simp only [Session.replay_step, State.replay, houtcomes, hmirrors.outcome_eq,
        hmatches.outcome, true_and]
      exact hrest

/-- After a program has been loaded, every history of inputs and steps on a reliable host leaves
the session where the same history leaves the word machine, with the same outcome of every step
and the same output. -/
theorem replay_refines_wordMachine {session : Session σ}
    (hreliable : Host.Reliable kept session.host) (image : List UInt8)
    (fits : image.length ≤ Memory.size) (actions : List Session.Action) :
    (session.load image).1 = .ok () ∧
      ((session.load image).2.replay actions).1 = ((State.boot image).replay .standard actions).1 ∧
      SessionRefines kept (kept session.host) ((session.load image).2.replay actions).2
        ((State.boot image).replay .standard actions).2 := by
  have hload : session.load image = (.ok (), ⟨.boot (.ofImage image fits),
      Host.log session.host (.imageLoaded image.length)⟩) := dif_pos fits
  rw [hload]
  refine ⟨rfl, replay_refines (hreliable.log _) ⟨refines_boot image fits, ?_⟩ actions⟩
  simp [hreliable.kept_log, State.boot]

/-- The program reads a line ending into a register, prints it, and pushes a bad operand. -/
theorem replay_refines_wordMachine_badPush :
    let image := [20, 0, 0, 128, 19, 0, 0, 128, 2, 0, 64, 156]
    let actions := [.step, .send "\r\n", .step, .step, .step, .step]
    let run := (Session.fresh.load image).2.replay actions
    Host.Reliable Host.Bounded.bytes Session.fresh.host ∧ image.length ≤ Memory.size ∧
      run.1 = [.needInput, .next, .next, .exit, .exit] ∧
      run.1 = ((State.boot image).replay .standard actions).1 ∧
      SessionRefines Host.Bounded.bytes [] run.2 ((State.boot image).replay .standard actions).2 := by
  intro image actions run
  have hfits : image.length ≤ Memory.size := by decide
  obtain ⟨-, houtcomes, hrefines⟩ :=
    replay_refines_wordMachine Session.fresh_reliable image hfits actions
  exact ⟨Session.fresh_reliable, hfits, by decide +kernel, houtcomes, hrefines⟩

/-- Taken at its word, the description has a carriage return read as thirteen, and has the program
counter stay at a word that names no opcode. -/
theorem not_refines_literal :
    ¬ SessionRefines Host.Bounded.bytes []
        ((Session.fresh.load [20, 0, 0, 128]).2.replay [.send "\r", .step]).2
        ((State.boot [20, 0, 0, 128]).replay .literal [.send "\r", .step]).2 ∧
      ¬ SessionRefines Host.Bounded.bytes []
        ((Session.fresh.load [22, 0]).2.replay [.step]).2
        ((State.boot [22, 0]).replay .literal [.step]).2 := by
  constructor
  · intro h
    exact absurd (h.machine.registers 0) (by decide +kernel)
  · intro h
    exact absurd h.machine.pc (by decide +kernel)

end WordMachine

end WordVM
