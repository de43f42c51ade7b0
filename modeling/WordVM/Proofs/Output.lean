import WordVM.Proofs.Execution
import WordVM.Proofs.Host.Limited
import WordVM.Proofs.Input

/-!
# Output

A program writes the characters of its output instructions, in the order in which they are
performed, and the host keeps their UTF-8 bytes. `Machine.replay` is a history of the machine by
itself with the characters written in it, and `Machine.advance_out` says which these are.

A history is the same on every host that takes all that is written (`Session.replay_takes`). On a
limited host it is the same until an output instruction whose character does not fit
(`Machine.exists_overflow`). That instruction fails and nothing happens after it
(`Session.overflowsNext_of_lt`). So the host keeps as much of the whole output as it has room for
(`Session.output_exact`), in whatever portions it takes it.
-/

namespace WordVM

/-- The code of the character that a word is written as. Surrogates are no characters, and U+FFFD
takes their place. -/
def Word.characterCode (w : Word) : Nat :=
  if 0xD800 ≤ w.toNat ∧ w.toNat ≤ 0xDFFF then 0xFFFD else w.toNat

theorem Word.toChar_toNat (w : Word) : (toChar w).toNat = characterCode w := by
  have hlt := w.toNat_lt
  unfold toChar characterCode
  by_cases hsurrogate : 0xD800 ≤ w.toNat ∧ w.toNat ≤ 0xDFFF
  · have hinvalid : ¬ w.toNat.isValidChar := by
      rintro (h | h) <;> omega
    rw [if_neg hinvalid, if_pos hsurrogate]
    rfl
  · have hvalid : w.toNat.isValidChar := by
      by_cases hlow : w.toNat < 0xD800
      · exact .inl hlow
      · exact .inr ⟨by omega, by omega⟩
    rw [if_pos hvalid, if_neg hsurrogate, Char.ofNat, dif_pos hvalid]
    rfl

/-- The word that an execution writes as a character, if it does so. -/
def Execution.printed? (e : Execution) : Option Word :=
  if e.instruction.opcode = .out then some (e.instruction.valueAt 0) else none

namespace Machine

/-! ## Characters written -/

theorem perform_of_out {i : Instruction} (hop : i.opcode = .out) (m : Machine) :
    m.perform i = (m, .emit (Word.toChar (i.valueAt 0))) := by
  obtain ⟨pc, op, o⟩ := i
  obtain rfl : op = .out := hop
  rw [Instruction.valueAt_eq (by decide)]
  rfl

/-- No other instruction writes a character. -/
theorem perform_ne_emit {i : Instruction} (hop : i.opcode ≠ .out) (m : Machine) (c : Char) :
    (m.perform i).2 ≠ .emit c := by
  obtain ⟨pc, op, o⟩ := i
  cases op
  case out => exact absurd rfl hop
  all_goals grind [perform]

theorem conclude_out (e : Execution) :
    (conclude e.result).2.2 = e.printed?.toList.map Word.toChar := by
  unfold Execution.result Execution.printed?
  by_cases hop : e.instruction.opcode = .out
  · rw [perform_of_out hop, if_pos hop]
    rfl
  · have hnone := perform_ne_emit hop e.machine
    rw [if_neg hop]
    rcases hperform : e.machine.perform e.instruction with ⟨m', effect⟩
    cases effect with
    | emit c => exact absurd (congrArg Prod.snd hperform) (hnone c)
    | next | exit | fault | await => rfl

/-- A step that performs an instruction comes to what the instruction comes to. -/
theorem advance_of_execution {m : Machine} {e : Execution} (he : m.execution? = some e) :
    m.advance = conclude e.result := by
  obtain ⟨hrunning, m₁, hresume, hfetch⟩ := execution?_eq_some_iff.mp he
  simp only [advance, hrunning, Bool.false_eq_true, if_false, hresume, runOne, hfetch]
  rfl

/-- A step writes what its instruction writes, and nothing without one. -/
theorem advance_out (m : Machine) :
    m.advance.2.2 = (m.execution?.toList.filterMap Execution.printed?).map Word.toChar := by
  cases he : m.execution? with
  | some e =>
    rw [advance_of_execution he, conclude_out, Option.toList_some]
    cases hprinted : e.printed? <;> simp [hprinted]
  | none =>
    unfold execution? at he
    unfold advance
    split
    · rfl
    · next hrunning =>
      rw [if_neg hrunning] at he
      cases hresume : m.resume? with
      | none => rfl
      | some m₁ =>
        rw [hresume, Option.bind_some] at he
        dsimp only [runOne]
        rcases hfetch : m₁.fetch with ⟨f | i, m₂⟩ <;> rw [hfetch] at he
        · rfl
        · cases he

/-- A step that writes something performs an output instruction, which is passed over. -/
theorem exists_of_advance_out_ne_nil {m : Machine} (h : m.advance.2.2 ≠ []) :
    ∃ e c, m.execution? = some e ∧ e.instruction.opcode = .out ∧
      c = Word.toChar (e.instruction.valueAt 0) ∧ m.advance = (.next, e.machine, [c]) := by
  rw [advance_out] at h
  cases he : m.execution? with
  | none => simp [he] at h
  | some e =>
    by_cases hop : e.instruction.opcode = .out
    · refine ⟨e, _, rfl, hop, rfl, ?_⟩
      rw [advance_of_execution he, Execution.result, perform_of_out hop]
      rfl
    · simp [he, Execution.printed?, hop] at h

/-! ## Histories of a machine by itself -/

/-- The outcomes of the steps among some actions, the machine after all of them, and the characters
written. -/
def replay : List Session.Action → Machine → List Outcome × Machine × List Char
  | [], m => ([], m, [])
  | .send text :: rest, m => replay rest (m.receive text)
  | .step :: rest, m =>
    let (outcome, m, out) := m.advance
    let (outcomes, m, more) := replay rest m
    (outcome :: outcomes, m, out ++ more)

/-- The bytes of a history's output, after others that were written before. -/
def bytesAfter (before : List UInt8) (actions : List Session.Action) (m : Machine) : List UInt8 :=
  before ++ Input.encode (m.replay actions).2.2

@[simp] theorem bytesAfter_nil (before : List UInt8) (m : Machine) :
    m.bytesAfter before [] = before := by
  simp [bytesAfter, replay, Input.encode]

@[simp] theorem bytesAfter_step (before : List UInt8) (rest : List Session.Action) (m : Machine) :
    m.bytesAfter before (.step :: rest) =
      m.advance.2.1.bytesAfter (before ++ Input.encode m.advance.2.2) rest := by
  simp [bytesAfter, replay, Input.encode]

/-- What is written later comes after what was written before. -/
theorem bytesAfter_append (before : List UInt8) (past rest : List Session.Action) (m : Machine) :
    m.bytesAfter before (past ++ rest) =
      (m.replay past).2.1.bytesAfter (m.bytesAfter before past) rest := by
  induction past generalizing m before with
  | nil => rw [bytesAfter_nil]; rfl
  | cons action past ih =>
    cases action with
    | send text => exact ih before (m.receive text)
    | step =>
      rw [List.cons_append, bytesAfter_step, bytesAfter_step]
      exact ih _ m.advance.2.1

/-- If the output of a history does not fit, there is a first step whose output does not fit. -/
theorem exists_overflow {capacity : Nat} {before : List UInt8} {m : Machine}
    {actions : List Session.Action} (hle : before.length ≤ capacity)
    (h : capacity < (m.bytesAfter before actions).length) :
    ∃ past rest, actions = past ++ .step :: rest ∧
      (m.bytesAfter before past).length ≤ capacity ∧
      capacity < (m.bytesAfter before past ++
        Input.encode (m.replay past).2.1.advance.2.2).length := by
  induction actions generalizing m before with
  | nil => simp at h; omega
  | cons action rest ih =>
    cases action with
    | send text =>
      obtain ⟨past, more, rfl, hpast, hstep⟩ := ih hle h
      exact ⟨.send text :: past, more, rfl, hpast, hstep⟩
    | step =>
      rw [bytesAfter_step] at h
      by_cases hfirst : (before ++ Input.encode m.advance.2.2).length ≤ capacity
      · obtain ⟨past, more, rfl, hpast, hstep⟩ := ih hfirst h
        refine ⟨.step :: past, more, rfl, ?_, ?_⟩ <;> rw [bytesAfter_step]
        · exact hpast
        · exact hstep
      · refine ⟨[], rest, rfl, ?_, ?_⟩ <;> rw [bytesAfter_nil]
        · exact hle
        · exact Nat.not_le.mp hfirst

end Machine

namespace Session

variable {σ υ : Type} [Host σ] [Host υ] {kept : σ → List UInt8} {capacity : Nat}

/-! ## Histories on hosts -/

/-- A history whose output is taken is one of the machine by itself. -/
theorem replay_takes {fitting : List UInt8 → Prop} {good : σ → Prop} {s : Session σ}
    (h : Host.TakesFitting fitting kept good) (hshorter : ∀ a b, fitting (a ++ b) → fitting a)
    (hs : good s.host) {actions : List Action}
    (hfitting : fitting (s.machine.bytesAfter (kept s.host) actions)) :
    (s.replay actions).1 = (s.machine.replay actions).1 ∧
      (s.replay actions).2.machine = (s.machine.replay actions).2.1 ∧
      kept (s.replay actions).2.host = s.machine.bytesAfter (kept s.host) actions ∧
      good (s.replay actions).2.host := by
  induction actions generalizing s with
  | nil => simpa [Machine.replay] using hs
  | cons action rest ih =>
    cases action with
    | send text =>
      obtain ⟨hkept, hgood⟩ := h.log s.host (.inputReceived text.length) ⟨rfl, hs⟩
      have hrest := ih (s := s.sendInput text) hgood
      rw [sendInput, hkept] at hrest
      exact hrest hfitting
    | step =>
      rw [Machine.bytesAfter_step] at hfitting ⊢
      obtain ⟨houtcome, hmachine, hkept, hgood⟩ := advance_takes h hs (hshorter _ _ hfitting)
      have hrest := ih hgood
      rw [hmachine, hkept] at hrest
      obtain ⟨houtcomes, hmachine', hkept', hgood'⟩ := hrest hfitting
      rw [replay_step, houtcome, houtcomes]
      exact ⟨rfl, hmachine', hkept', hgood'⟩

theorem replay_reliable {s : Session σ} (h : Host.Reliable kept s.host) (actions : List Action) :
    (s.replay actions).1 = (s.machine.replay actions).1 ∧
      (s.replay actions).2.machine = (s.machine.replay actions).2.1 ∧
      kept (s.replay actions).2.host = s.machine.bytesAfter (kept s.host) actions ∧
      Host.Reliable kept (s.replay actions).2.host :=
  replay_takes Host.Reliable.takes (fun _ _ h => h) h trivial

theorem replay_limited {s : Session σ} (h : Host.Limited capacity kept s.host)
    {actions : List Action}
    (hfits : (s.machine.bytesAfter (kept s.host) actions).length ≤ capacity) :
    (s.replay actions).1 = (s.machine.replay actions).1 ∧
      (s.replay actions).2.machine = (s.machine.replay actions).2.1 ∧
      kept (s.replay actions).2.host = s.machine.bytesAfter (kept s.host) actions ∧
      Host.Limited capacity kept (s.replay actions).2.host :=
  replay_takes Host.Limited.takes (fun _ _ hroom => (List.prefix_append ..).length_le.trans hroom) h
    hfits

/-- On a reliable host the characters written are those of the output instructions performed. -/
theorem replay_out {s : Session σ} (h : Host.Reliable kept s.host) (actions : List Action) :
    (s.machine.replay actions).2.2 =
      ((s.executions actions).filterMap Execution.printed?).map Word.toChar := by
  induction actions generalizing s with
  | nil => rfl
  | cons action rest ih =>
    cases action with
    | send text => exact ih (s := s.sendInput text) (h.log _)
    | step =>
      obtain ⟨-, hmachine, -, hreliable⟩ := advance_mirrors h
      have hrest := ih hreliable
      rw [hmachine] at hrest
      rw [executions_step, List.filterMap_append, List.map_append, ← Machine.advance_out, ← hrest]
      rfl

/-- The next step performs an output instruction for whose character there is no room. The
instruction fails. Whatever happens afterwards, the machine stays as it was before the instruction
was fetched, except that it has passed over the instruction, that input arrives, and that a fault
is recorded: the one of the operand word, if that is bad, and else the failure of the output. -/
def OverflowsNext (capacity : Nat) (kept : σ → List UInt8) (s : Session σ) : Prop :=
  ∃ point i fetched word reason, s.fetchPoint? = some point ∧ point.fetch = (.ok i, fetched) ∧
    i.opcode = .out ∧ point.machine.memory.read (point.machine.pc + 2) = .ok word ∧
    capacity < (kept fetched.host ++ String.utf8EncodeChar (Word.toChar (i.valueAt 0))).length ∧
    (fetched.execute i).1 = .error (.output reason) ∧
    ∀ after, (∀ outcome ∈ (s.replay (.step :: after)).1, outcome = .exit) ∧
      (s.replay (.step :: after)).2.machine =
        { point.machine with
          pc := point.machine.pc + 4
          fault := some ((Operand.wordFault? word).getD (.output reason))
          input := point.machine.input ++ arrivals after }

/-- A step whose output does not fit performs an output instruction, which fails. The host keeps
what it had room for, and nothing after it. -/
theorem overflowsNext_of_lt {s : Session σ} (h : Host.Limited capacity kept s.host)
    (hfull : capacity < (kept s.host ++ Input.encode s.machine.advance.2.2).length) :
    OverflowsNext capacity kept s ∧ ∀ after, kept (s.replay (.step :: after)).2.host =
      (kept s.host ++ Input.encode s.machine.advance.2.2).take capacity := by
  have hout : s.machine.advance.2.2 ≠ [] := by
    intro hnil
    rw [hnil, Input.encode, List.flatMap_nil, List.append_nil] at hfull
    exact Nat.not_le.mpr hfull h.length_le
  obtain ⟨e, c, he, hop, rfl, hplain⟩ := Machine.exists_of_advance_out_ne_nil hout
  obtain ⟨hrunning, m, hresume, hplainFetch⟩ := Machine.execution?_eq_some_iff.mp he
  have hpoint : s.fetchPoint? = some ⟨m, s.host⟩ :=
    fetchPoint?_eq_some_iff.mpr ⟨hrunning, hresume, rfl⟩
  -- The fetch finds the same instruction as on the machine by itself, and writes nothing.
  rcases hfetch : fetch ⟨m, s.host⟩ with ⟨result, fetched⟩
  obtain ⟨hkept, hlimited⟩ := fetch_host (s := ⟨m, s.host⟩) Host.Limited.takes.log ⟨rfl, h⟩
  rw [hfetch] at hkept hlimited
  have hsame := machine_fetch_eq hfetch
  rw [hplainFetch, Prod.mk.injEq] at hsame
  obtain ⟨rfl, hmachine⟩ := hsame
  obtain ⟨-, word, -, hword, -, hfetched⟩ :=
    Machine.fetch_of_arity_eq_one hplainFetch (by rw [hop]; rfl)
  -- Nothing has been recorded before, since the run is not over.
  have hfault : m.fault = none := by
    rw [(Machine.resume?_eq_some hresume).2.2]
    exact (Machine.stopped_eq_false_iff.mp hrunning).2
  have hbytes : kept s.host ++ Input.encode s.machine.advance.2.2 =
      kept fetched.host ++ String.utf8EncodeChar (Word.toChar (e.instruction.valueAt 0)) := by
    rw [hkept, hplain, Input.encode, List.flatMap_singleton]
  rw [hbytes] at hfull ⊢
  obtain ⟨reason, host, hexecute, hkeptAfter⟩ :=
    execute_of_full hlimited (Machine.perform_of_out hop fetched.machine) hfull
  have hadvance : s.advance = (.exit, ⟨{ m with
      pc := m.pc + 4
      fault := some ((Operand.wordFault? word).getD (.output reason)) }, host⟩) := by
    have hone : s.advance = runOne ⟨m, s.host⟩ := by
      simp only [advance, hrunning, hresume, Bool.false_eq_true, if_false]
    rw [hone, runOne, hfetch]
    simp only [hexecute, ← hmachine, hfetched, hfault, Machine.record, Option.none_or]
    cases Operand.wordFault? word <;> rfl
  -- The recorded fault has ended the run.
  have hstopped : s.advance.2.machine.stopped = true := by
    rw [hadvance]
    simp [Machine.stopped]
  refine ⟨⟨_, _, fetched, word, reason, hpoint, hfetch, hop, hword, hfull, by rw [hexecute], ?_⟩,
    ?_⟩ <;> intro after <;>
    obtain ⟨houtcomes, hmachineAfter, hhost⟩ := replay_of_stopped hstopped after <;>
    rw [replay_step]
  · refine ⟨List.forall_mem_cons.mpr ⟨by rw [hadvance], houtcomes⟩, ?_⟩
    rw [hmachineAfter, hadvance]
  · refine (hhost (fun host => kept host = _ ∧ Host.Limited capacity kept host)
      Host.Limited.takes.log ?_).1
    rw [hadvance]
    exact hkeptAfter

/-- Compares a history of a machine on a host with room for `capacity` bytes with the same history
on a host that takes everything.

The latter keeps the characters of the words that output instructions write, in the order in which
these are performed, as UTF-8. The former keeps as much of it from the front as it has room for.
What fits makes no difference to the machine. If not everything fits, there is a first output
instruction whose character does not, and with it the run is over. -/
theorem output_exact {s : Session σ} {u : Session υ} {kept' : υ → List UInt8}
    (hs : Host.Limited capacity kept s.host) (hu : Host.Reliable kept' u.host)
    (hmachine : s.machine = u.machine) (hempty : kept s.host = []) (hempty' : kept' u.host = [])
    (actions : List Action) :
    let words := (u.executions actions).filterMap Execution.printed?
    let text := words.map Word.toChar
    let bytes (soFar : List Action) := kept' (u.replay soFar).2.host
    (text.map Char.toNat = words.map Word.characterCode ∧ bytes actions = Input.encode text ∧
        String.fromUTF8? ⟨(bytes actions).toArray⟩ = some (.ofList text)) ∧
      kept (s.replay actions).2.host = (bytes actions).take capacity ∧
      (∀ soFar, soFar <+: actions → (bytes soFar).length ≤ capacity →
        (s.replay soFar).1 = (u.replay soFar).1 ∧
          (s.replay soFar).2.machine = (u.replay soFar).2.machine) ∧
      (capacity < (bytes actions).length →
        ∃ past after, actions = past ++ .step :: after ∧ (bytes past).length ≤ capacity ∧
          OverflowsNext capacity kept (s.replay past).2) := by
  intro words text bytes
  have hbytes (soFar : List Action) : bytes soFar = s.machine.bytesAfter [] soFar := by
    rw [hmachine, ← hempty']
    exact (replay_reliable hu soFar).2.2.1
  have hfits {soFar : List Action} (hle : (bytes soFar).length ≤ capacity) :=
    replay_limited hs (show (s.machine.bytesAfter (kept s.host) soFar).length ≤ capacity by
      rwa [hempty, ← hbytes])
  have htext : bytes actions = Input.encode text := by
    rw [hbytes, Machine.bytesAfter, hmachine, replay_out hu]
    rfl
  have hoverflow (hlong : capacity < (bytes actions).length) :
      ∃ past after, actions = past ++ .step :: after ∧ (bytes past).length ≤ capacity ∧
        OverflowsNext capacity kept (s.replay past).2 ∧
        kept (s.replay actions).2.host = (bytes actions).take capacity := by
    rw [hbytes] at hlong
    obtain ⟨past, after, rfl, hpast, hnext⟩ := Machine.exists_overflow (Nat.zero_le _) hlong
    rw [← hbytes] at hpast
    obtain ⟨-, hsame, hkept, hlimited⟩ := hfits hpast
    rw [hempty] at hkept
    rw [← hkept, ← hsame] at hnext
    obtain ⟨hoverflows, hafter⟩ := overflowsNext_of_lt hlimited hnext
    refine ⟨past, after, rfl, hpast, hoverflows, ?_⟩
    -- What follows the step that overflows is beyond what there is room for.
    rw [replay_append, hafter, hbytes, Machine.bytesAfter_append, Machine.bytesAfter_step,
      ← hkept, ← hsame, Machine.bytesAfter, List.take_append_of_le_length hnext.le]
  refine ⟨⟨?_, htext, ?_⟩, ?_, ?_, ?_⟩
  · simp [text, Word.toChar_toNat]
  · rw [htext, Input.fromUTF8?_encode]
  · by_cases hle : (bytes actions).length ≤ capacity
    · rw [List.take_of_length_le hle, (hfits hle).2.2.1, hempty, hbytes]
    · obtain ⟨_, _, _, _, _, hkept⟩ := hoverflow (Nat.not_le.mp hle)
      exact hkept
  · intro soFar _ hle
    obtain ⟨houtcomes, hsame, -⟩ := hfits hle
    obtain ⟨houtcomes', hsame', -⟩ := replay_reliable hu soFar
    rw [houtcomes, hsame, houtcomes', hsame', hmachine]
    exact ⟨rfl, rfl⟩
  · intro hlong
    obtain ⟨past, after, hsplit, hpast, hnext, -⟩ := hoverflow hlong
    exact ⟨past, after, hsplit, hpast, hnext⟩

/-- The program writes three characters of one byte, of three bytes and of three bytes again. There
is room for five bytes, of which two are taken at a time. -/
theorem output_exact_euroSigns :
    let image : List UInt8 := [19, 0, 104, 0, 19, 0, 172, 32, 19, 0, 172, 32, 0, 0]
    let s := (load ⟨.initial, { capacity := some 5, chunk := some 2 }⟩ image).2
    let u := (fresh.load image).2
    let actions : List Action := [.step, .step, .step, .send "x", .step]
    Host.Limited 5 Host.Bounded.bytes s.host ∧ Host.Reliable Host.Bounded.bytes u.host ∧
      s.machine = u.machine ∧ Host.Bounded.bytes s.host = [] ∧ Host.Bounded.bytes u.host = [] ∧
      Host.Bounded.bytes (u.replay actions).2.host = [104, 226, 130, 172, 226, 130, 172] ∧
      Host.Bounded.bytes (s.replay actions).2.host = [104, 226, 130, 172, 226] ∧
      ∃ past after, actions = past ++ .step :: after ∧
        (Host.Bounded.bytes (u.replay past).2.host).length ≤ 5 ∧
        OverflowsNext 5 Host.Bounded.bytes (s.replay past).2 := by
  intro image s u actions
  have hs : Host.Limited 5 Host.Bounded.bytes s.host :=
    Host.Bounded.limited rfl (by decide) rfl (by decide)
  have hu : Host.Reliable Host.Bounded.bytes u.host := Host.Bounded.reliable rfl rfl rfl
  have hall : Host.Bounded.bytes (u.replay actions).2.host =
      [104, 226, 130, 172, 226, 130, 172] := by decide +kernel
  obtain ⟨-, hkept, -, hoverflow⟩ := output_exact hs hu rfl rfl rfl actions
  dsimp only at hkept hoverflow
  rw [hall] at hkept hoverflow
  exact ⟨hs, hu, rfl, rfl, rfl, hall, hkept, hoverflow (by decide)⟩

end Session

end WordVM
