import WordVM.Proofs.Host.Transfer

/-!
# Executions that fail

Three kinds of instructions can fail by themselves, and their operands alone decide whether they do
(`Instruction.Fails`, `Machine.perform_eq_fault_iff`). Besides, the host can refuse a character or a
flush. There is no other way to fail (`Session.execute_error_iff`), and an instruction that fails
does nothing else (`Session.execute_of_fails`). `execute_fails_exactly` adds what the host is left
with.
-/

namespace WordVM

/-- The word with this address does not lie within memory. -/
theorem Word.beyond_iff (w : Word) : Memory.size < w.byteOffset + 2 ↔ 32767 ≤ w.toNat := by
  show 0xFFFE < 2 * w.toNat + 2 ↔ _
  omega

/-! ## Instructions that fail by themselves -/

/-- The instruction fails by itself, with this fault. -/
inductive Instruction.Fails (i : Instruction) : Fault → Prop
  /-- It takes a remainder by zero, for a register. -/
  | divideByZero (hop : i.opcode = .mod) (hdest : i.destination? ≠ none)
      (hzero : i.valueAt 2 = 0) : Fails i (.divideByZero i.pc)
  /-- It reads from beyond memory, for a register. -/
  | readOutside (hop : i.opcode = .readMem) (hdest : i.destination? ≠ none)
      (haddress : 32767 ≤ (i.valueAt 1).toNat) :
      Fails i (.addressOutOfRange (2 * (i.valueAt 1).toNat))
  /-- It writes beyond memory. -/
  | writeOutside (hop : i.opcode = .writeMem) (haddress : 32767 ≤ (i.valueAt 0).toNat) :
      Fails i (.addressOutOfRange (2 * (i.valueAt 0).toNat))

namespace Machine

variable {m m' : Machine} {i : Instruction} {f : Fault}

/-- Such an instruction fails on every machine and leaves it as it is. -/
theorem perform_of_fails (m : Machine) (h : i.Fails f) : m.perform i = (m, .fault f) := by
  obtain ⟨pc, op, o⟩ := i
  cases h with
  | divideByZero hop hdest hzero =>
    obtain rfl : op = .mod := hop
    rw [Instruction.destination?_eq (by decide)] at hdest
    rw [Instruction.valueAt_eq (by decide)] at hzero
    simp only [perform, Option.isSome_iff_ne_none, if_pos hdest, if_pos hzero]
  | readOutside hop hdest haddress =>
    obtain rfl : op = .readMem := hop
    rw [Instruction.destination?_eq (by decide)] at hdest
    rw [Instruction.valueAt_eq (by decide)] at haddress ⊢
    have hread : m.memory.read o[1].byteOffset = .error (.addressOutOfRange o[1].byteOffset) :=
      Memory.read_eq_error_iff.mpr ⟨(Word.beyond_iff _).mpr haddress, rfl⟩
    simp only [perform, Option.isSome_iff_ne_none, if_pos hdest, hread]
    rfl
  | writeOutside hop haddress =>
    obtain rfl : op = .writeMem := hop
    rw [Instruction.valueAt_eq (by decide)] at haddress ⊢
    have hwrite : m.memory.write o[0].byteOffset o[1].value =
        .error (.addressOutOfRange o[0].byteOffset) :=
      Memory.write_eq_error_iff.mpr ⟨(Word.beyond_iff _).mpr haddress, rfl⟩
    simp only [perform, hwrite]
    rfl

theorem fails_of_perform (h : m.perform i = (m', .fault f)) : i.Fails f := by
  obtain ⟨pc, op, o⟩ := i
  have hdestination (hop : 0 < op.arity) (hsome : o[0].register?.isSome = true) :
      Instruction.destination? ⟨pc, op, o⟩ ≠ none := by
    rw [Instruction.destination?_eq hop]
    exact Option.isSome_iff_ne_none.mp hsome
  have hvalue (k : Nat) (hk : k < op.arity) : Instruction.valueAt ⟨pc, op, o⟩ k = o[k].value :=
    Instruction.valueAt_eq hk
  cases op
  case mod =>
    simp only [perform] at h
    split at h
    · next hsome =>
      split at h
      · next hzero =>
        obtain ⟨-, rfl⟩ := by simpa using h
        rw [← hvalue 2 (by decide)] at hzero
        exact .divideByZero rfl (hdestination (by decide) hsome) hzero
      · cases h
    · cases h
  case readMem =>
    simp only [perform] at h
    split at h
    · next hsome =>
      split at h
      · cases h
      · next hread =>
        obtain ⟨-, rfl⟩ := by simpa using h
        obtain ⟨hbeyond, rfl⟩ := Memory.read_eq_error_iff.mp hread
        have haddress := (Word.beyond_iff _).mp hbeyond
        rw [← hvalue 1 (by decide)] at haddress
        rw [Operand.byteOffset, ← hvalue 1 (by decide)]
        exact .readOutside rfl (hdestination (by decide) hsome) haddress
    · cases h
  case writeMem =>
    simp only [perform] at h
    split at h
    · cases h
    · next hwrite =>
      obtain ⟨-, rfl⟩ := by simpa using h
      obtain ⟨hbeyond, rfl⟩ := Memory.write_eq_error_iff.mp hwrite
      have haddress := (Word.beyond_iff _).mp hbeyond
      rw [← hvalue 0 (by decide)] at haddress
      rw [Operand.byteOffset, ← hvalue 0 (by decide)]
      exact .writeOutside rfl haddress
  -- No other instruction can fail by itself.
  all_goals
    simp only [perform] at h
    grind

theorem perform_of_input (hop : i.opcode = .input) (hempty : m.input = []) :
    m.perform i = ({ m with pending := i.operands[0]? }, .await) := by
  obtain ⟨pc, op, o⟩ := i
  obtain rfl : op = .input := hop
  have hdestination : o[0]? = some o[0] := Vector.getElem?_eq_getElem Nat.one_pos
  simp only [perform, takeInput?, hempty, hdestination]

theorem out_of_perform {c : Char} (h : m.perform i = (m', .emit c)) :
    i.opcode = .out ∧ c = Word.toChar (i.valueAt 0) := by
  by_cases hop : i.opcode = .out
  · rw [perform_of_out hop] at h
    cases h
    exact ⟨hop, rfl⟩
  · exact absurd (congrArg Prod.snd h) (perform_ne_emit hop m c)

/-- The operands of an instruction decide whether it fails by itself. -/
theorem perform_eq_fault_iff : m.perform i = (m', .fault f) ↔ m' = m ∧ i.Fails f := by
  constructor
  · intro h
    have hfails := fails_of_perform h
    rw [perform_of_fails m hfails] at h
    exact ⟨(congrArg Prod.fst h).symm, hfails⟩
  · rintro ⟨rfl, hfails⟩
    exact perform_of_fails _ hfails

end Machine

namespace Session

variable {σ : Type} [Host σ]

/-! ## Executions that fail -/

/-- The execution of the instruction fails, with this fault. -/
inductive Fails (s : Session σ) (i : Instruction) : Fault → Prop
  /-- The instruction fails by itself. -/
  | instruction {f : Fault} (h : i.Fails f) : Fails s i f
  /-- The host refuses the character of an output instruction. -/
  | write {reason : String} (hop : i.opcode = .out)
      (hrefused : (Host.writeAll s.host (String.utf8EncodeChar (Word.toChar (i.valueAt 0)))).1 =
        .error reason) : Fails s i (.output reason)
  /-- The host refuses the flush of an input instruction that finds no character. -/
  | flush {reason : String} (hop : i.opcode = .input) (hempty : s.machine.input = [])
      (hrefused : (Host.flush s.host).1 = .error reason) : Fails s i (.output reason)

variable {s : Session σ} {i : Instruction} {f : Fault}

/-- An execution that fails records its fault, unless there is one already. An input instruction is
remembered as the one that waits. The rest of the machine stays as it is. -/
theorem execute_of_fails (h : s.Fails i f) :
    (s.execute i).1 = .error f ∧ (s.execute i).2.machine = { s.machine with
      fault := s.machine.fault.or (some f)
      pending := if i.opcode = .input then i.operands[0]? else s.machine.pending } := by
  cases h with
  | instruction h =>
    have hop : i.opcode ≠ .input := by
      cases h with
      | divideByZero hop | readOutside hop | writeOutside hop => simp [hop]
    simp only [execute, Machine.perform_of_fails s.machine h, if_neg hop]
    exact ⟨trivial, fail_machine ..⟩
  | write hop hrefused =>
    have hop' : i.opcode ≠ .input := by simp [hop]
    simp only [execute, Machine.perform_of_out hop, if_neg hop']
    rcases hwrite : Host.writeAll s.host (String.utf8EncodeChar (Word.toChar (i.valueAt 0)))
      with ⟨_, host⟩
    rw [hwrite] at hrefused
    obtain rfl := hrefused
    exact ⟨rfl, fail_machine ..⟩
  | flush hop hempty hrefused =>
    -- The instruction is remembered first, and then the flush fails.
    simp only [execute, Machine.perform_of_input hop hempty, if_pos hop, awaitInput]
    rcases hflush : Host.flush s.host with ⟨_, host⟩
    rw [hflush] at hrefused
    obtain rfl := hrefused
    exact ⟨rfl, fail_machine ..⟩

/-- There is no other way to fail. -/
theorem fails_of_execute (h : (s.execute i).1 = .error f) : s.Fails i f := by
  rcases hperform : s.machine.perform i with ⟨m, effect⟩
  simp only [execute, hperform] at h
  cases effect with
  | next | exit => cases h
  | fault f' =>
    cases h
    exact .instruction (Machine.fails_of_perform hperform)
  | emit c =>
    obtain ⟨hop, rfl⟩ := Machine.out_of_perform hperform
    dsimp only at h
    rcases hwrite : Host.writeAll s.host (String.utf8EncodeChar (Word.toChar (i.valueAt 0)))
      with ⟨reason | _, host⟩ <;> rw [hwrite] at h <;> cases h
    exact .write hop (by rw [hwrite])
  | await =>
    obtain ⟨hawait, -⟩ | ⟨pc, o, rfl, hempty, -, -⟩ := Machine.perform_cases hperform
    · exact absurd rfl hawait
    · simp only [awaitInput] at h
      rcases hflush : Host.flush s.host with ⟨reason | _, host⟩ <;> rw [hflush] at h <;> cases h
      exact .flush rfl hempty (by rw [hflush])

theorem execute_error_iff : (s.execute i).1 = .error f ↔ s.Fails i f :=
  ⟨fails_of_execute, fun h => (execute_of_fails h).1⟩

/-- Executions fail exactly for these reasons, and those that fail do nothing else. Take any machine
on any host and any instruction, and keep a journal beside the host, which makes no difference.
* The execution fails with a fault exactly if the instruction fails by itself with that fault, or
  the host refuses its character, or it finds no input and the host refuses the flush.
* Of the character of an output instruction the host accepts the first bytes, and the instruction
  fails exactly if these are not all.
* A failure changes nothing in the machine, but that the fault is recorded if it is the first one,
  and that an input instruction is remembered as the one that waits. Of the host nothing is asked
  but to take the bytes of the character, by an output instruction, or the flush that it refuses, by
  an input instruction. -/
theorem execute_fails_exactly (s : Session σ) (i : Instruction) :
    let noted := (s.map Host.Journaled.start).execute i
    let transfers := noted.2.host.transfers
    let accepted := transfers.flatMap Host.Request.accepted
    let character := String.utf8EncodeChar (Word.toChar (i.valueAt 0))
    (noted.1 = (s.execute i).1 ∧ noted.2.map Host.Journaled.host = (s.execute i).2) ∧
      (∀ f, (s.execute i).1 = .error f ↔ s.Fails i f) ∧
      (i.opcode = .out → accepted <+: character ∧
        ((∃ f, (s.execute i).1 = .error f) ↔ accepted ≠ character)) ∧
      ∀ f, (s.execute i).1 = .error f →
        (s.execute i).2.machine = { s.machine with
          fault := s.machine.fault.or (some f)
          pending := if i.opcode = .input then i.operands[0]? else s.machine.pending } ∧
        ∀ request ∈ transfers, i.opcode = .out ∧ request.isWrite = true ∨
          i.opcode = .input ∧ ∃ reason, request = .flush (.error reason) := by
  intro noted transfers accepted character
  -- A journal makes no difference, so what it tells is what has been asked of the host.
  have hsame : s.execute i = (noted.1, noted.2.map Host.Journaled.host) :=
    execute_map Host.Journaled.hom (s.map Host.Journaled.start) i
  have hresult : noted.1 = (s.execute i).1 := (congrArg Prod.fst hsame).symm
  obtain ⟨requests, hrequests, hkind⟩ := (s.map Host.Journaled.start).execute_transfers i
  have htransfers : transfers = requests := hrequests
  rw [show ((s.map Host.Journaled.start).execute i).1 = (s.execute i).1 from hresult] at hkind
  clear_value transfers
  subst htransfers
  refine ⟨⟨hresult, (congrArg Prod.snd hsame).symm⟩, fun f => execute_error_iff,
    hkind.accepted_of_out, fun f hf => ⟨?_, ?_⟩⟩
  · exact (execute_of_fails (execute_error_iff.mp hf)).2
  · rw [hf] at hkind
    exact hkind.of_error

/-- The host has room for two of the three bytes of a character. -/
theorem execute_fails_exactly_euroSign :
    let s : Session Host.Bounded := ⟨.initial, { capacity := some 2 }⟩
    let i : Instruction := ⟨0, .out, #v[.literal 8364]⟩
    let transfers := ((s.map Host.Journaled.start).execute i).2.host.transfers
    transfers.flatMap Host.Request.accepted = [226, 130] ∧
      ∃ f, (s.execute i).1 = .error f ∧
        (s.execute i).2.machine = { s.machine with fault := some f } := by
  intro s i transfers
  have haccepted : transfers.flatMap Host.Request.accepted = [226, 130] := by decide +kernel
  obtain ⟨-, -, hout, hfailed⟩ := execute_fails_exactly s i
  obtain ⟨-, hpart⟩ := hout rfl
  obtain ⟨f, hf⟩ := hpart.mpr (by rw [haccepted]; decide +kernel)
  obtain ⟨hmachine, -⟩ := hfailed f hf
  exact ⟨haccepted, f, hf, hmachine⟩

end Session

end WordVM
