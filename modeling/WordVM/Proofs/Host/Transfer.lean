import WordVM.Proofs.Host.Journal
import WordVM.Proofs.Output

/-!
# Transfers

What a journal tells of the output of a session: which bytes the host was offered, what flushes it
was asked for, and how it answered (`Host.Journaled.transfers`). Events are left out.

Of bytes that are written the host accepts the first ones, and the write succeeds exactly if it
accepts all of them (`Host.Journaled.transfers_writeAll`). `Session.execute_transfers` says what an
instruction has to do with the host: an output instruction writes, an input instruction that finds
no character flushes, and no other instruction does either.
-/

namespace WordVM

namespace Host

variable {σ : Type}

namespace Request

/-- The request concerns output: it does not only report an event. -/
def isTransfer : Request → Bool
  | .write .. | .flush .. => true
  | .log _ => false

/-- The host is asked to take bytes. -/
def isWrite : Request → Bool
  | .write .. => true
  | .flush .. | .log _ => false

/-- The bytes that the host takes with a request. -/
def accepted : Request → List UInt8
  | .write bytes (.ok n) => bytes.take n
  | .write _ (.error _) | .flush _ | .log _ => []

/-- The answer to a flush, if the request is one. -/
def flushed? : Request → Option (Except String Unit)
  | .flush answer => some answer
  | .write .. | .log _ => none

end Request

namespace Journaled

/-- The writes and flushes in the journal. -/
def transfers (h : Journaled σ) : List Request := h.journal.filter Request.isTransfer

@[simp] theorem transfers_start (host : σ) : (start host).transfers = [] := rfl

variable [Host σ]

@[simp] theorem transfers_log (h : Journaled σ) (event : Log.Event) :
    (Host.log h event).transfers = h.transfers := by
  simp [transfers, Host.log, Request.isTransfer]

@[simp] theorem transfers_flush (h : Journaled σ) :
    (Host.flush h).2.transfers = h.transfers ++ [.flush (Host.flush h).1] := by
  simp [transfers, Host.flush, Request.isTransfer]

@[simp] theorem transfers_write (h : Journaled σ) (bytes : List UInt8) :
    (Host.write h bytes).2.transfers = h.transfers ++ [.write bytes (Host.write h bytes).1] := by
  simp [transfers, Host.write, Request.isTransfer]

private theorem transfers_writeRest (h : Journaled σ) (taken : Nat) (bytes : List UInt8) :
    ∃ writes, (writeRest h taken bytes).2.transfers = h.transfers ++ writes ∧
      (∀ request ∈ writes, request.isWrite = true) ∧
      writes.flatMap Request.accepted <+: bytes.drop taken ∧
      ((writeRest h taken bytes).1 = .ok () ↔
        writes.flatMap Request.accepted = bytes.drop taken) := by
  induction bytes generalizing h taken with
  | nil => exact ⟨[], by simp [writeRest]⟩
  | cons b rest ih =>
    cases taken with
    | succ taken => simpa only [writeRest, List.drop_succ_cons] using ih h taken
    | zero =>
      have hwrite := h.transfers_write (b :: rest)
      rw [writeRest]
      rcases hresult : Host.write h (b :: rest) with ⟨reason | n, h'⟩ <;> rw [hresult] at hwrite
      · exact ⟨_, hwrite, by simp [Request.isWrite], by simp [Request.accepted]⟩
      · cases n with
        | zero => exact ⟨_, hwrite, by simp [Request.isWrite], by simp [Request.accepted]⟩
        | succ n =>
          -- What is accepted now comes before what is accepted of the rest.
          obtain ⟨writes, htransfers, hwrites, hfirst, hanswer⟩ := ih h' n
          have hsplit : (b :: rest).take (n + 1) ++ rest.drop n = b :: rest := by simp
          refine ⟨.write (b :: rest) (.ok (n + 1)) :: writes, ?_, ?_, ?_, ?_⟩
          · rw [htransfers, hwrite, List.append_assoc, List.singleton_append]
          · exact List.forall_mem_cons.mpr ⟨rfl, hwrites⟩
          · have hmore := (List.prefix_append_right_inj ((b :: rest).take (n + 1))).mpr hfirst
            rwa [hsplit] at hmore
          · rw [List.flatMap_cons, Request.accepted, List.drop_zero, hanswer,
              ← List.append_cancel_left_eq ((b :: rest).take (n + 1)), hsplit]

/-- Of the bytes written the host accepts the first ones, and the write succeeds exactly if it
accepts all of them. -/
theorem transfers_writeAll (h : Journaled σ) (bytes : List UInt8) :
    ∃ writes, (writeAll h bytes).2.transfers = h.transfers ++ writes ∧
      (∀ request ∈ writes, request.isWrite = true) ∧
      writes.flatMap Request.accepted <+: bytes ∧
      ((writeAll h bytes).1 = .ok () ↔ writes.flatMap Request.accepted = bytes) :=
  h.transfers_writeRest 0 bytes

end Journaled

end Host

/-- What an instruction transfers when its execution has this result. -/
inductive Instruction.Transfers (i : Instruction) :
    Except Fault Outcome → List Host.Request → Prop
  /-- Nothing. The instruction does not write, and it does not wait. -/
  | nothing {result : Except Fault Outcome} (hop : i.opcode ≠ .out)
      (hresult : result ≠ .ok .needInput) : Transfers i result []
  /-- The bytes of a character. The host may accept some of the first ones only, and then the
  instruction fails. -/
  | character {result : Except Fault Outcome} {writes : List Host.Request} (hop : i.opcode = .out)
      (hresult : result = .ok .next ∨ ∃ reason, result = .error (.output reason))
      (hwrites : ∀ request ∈ writes, request.isWrite = true)
      (hfirst : writes.flatMap Host.Request.accepted <+:
        String.utf8EncodeChar (Word.toChar (i.valueAt 0)))
      (hall : result = .ok .next ↔ writes.flatMap Host.Request.accepted =
        String.utf8EncodeChar (Word.toChar (i.valueAt 0))) : Transfers i result writes
  /-- A flush, because the instruction waits for input. -/
  | flushed (hop : i.opcode = .input) : Transfers i (.ok .needInput) [.flush (.ok ())]
  /-- A flush that fails, and so does the instruction that would have waited. -/
  | refused {reason : String} (hop : i.opcode = .input) :
      Transfers i (.error (.output reason)) [.flush (.error reason)]

namespace Instruction.Transfers

variable {i : Instruction} {result : Except Fault Outcome} {requests : List Host.Request}

/-- An output instruction fails exactly if its character is not accepted as a whole. -/
theorem accepted_of_out (h : i.Transfers result requests) (hop : i.opcode = .out) :
    requests.flatMap Host.Request.accepted <+:
        String.utf8EncodeChar (Word.toChar (i.valueAt 0)) ∧
      ((∃ f, result = .error f) ↔ requests.flatMap Host.Request.accepted ≠
        String.utf8EncodeChar (Word.toChar (i.valueAt 0))) := by
  cases h with
  | nothing hop' => exact absurd hop hop'
  | character _ hresult _ hfirst hall =>
    refine ⟨hfirst, ?_⟩
    rw [ne_eq, ← hall]
    rcases hresult with rfl | ⟨reason, rfl⟩ <;> simp
  | flushed hop' | refused hop' => simp [hop] at hop'

/-- An instruction that fails has offered its character, or has tried to flush, or has not asked for
anything. -/
theorem of_error {f : Fault} (h : i.Transfers (.error f) requests) :
    ∀ request ∈ requests, i.opcode = .out ∧ request.isWrite = true ∨
      i.opcode = .input ∧ ∃ reason, request = .flush (.error reason) := by
  intro request hrequest
  cases h with
  | nothing => cases hrequest
  | character hop _ hwrites => exact .inl ⟨hop, hwrites request hrequest⟩
  | refused hop => exact .inr ⟨hop, _, List.mem_singleton.mp hrequest⟩

end Instruction.Transfers

namespace Session

variable {σ : Type} [Host σ]

@[simp] theorem fail_transfers (s : Session (Host.Journaled σ)) (f : Fault) :
    (s.fail f).host.transfers = s.host.transfers :=
  fail_host (P := (Host.Journaled.transfers · = s.host.transfers))
    (fun host event h => (host.transfers_log event).trans h) rfl f

/-- A fetch transfers nothing. -/
@[simp] theorem fetch_transfers (s : Session (Host.Journaled σ)) :
    s.fetch.2.host.transfers = s.host.transfers :=
  fetch_host (P := (Host.Journaled.transfers · = s.host.transfers))
    (fun host event h => (host.transfers_log event).trans h) rfl

/-- A session that comes to wait has just flushed, and one that fails to has tried. -/
theorem awaitInput_transfers (s : Session (Host.Journaled σ)) :
    (s.awaitInput.1 = .ok .needInput ∧
        s.awaitInput.2.host.transfers = s.host.transfers ++ [.flush (.ok ())]) ∨
      ∃ reason, s.awaitInput.1 = .error (.output reason) ∧
        s.awaitInput.2.host.transfers = s.host.transfers ++ [.flush (.error reason)] := by
  have hflush := s.host.transfers_flush
  unfold awaitInput
  rcases hresult : Host.flush s.host with ⟨reason | _, host⟩ <;> rw [hresult] at hflush
  · exact .inr ⟨reason, rfl, (fail_transfers ⟨s.machine, host⟩ _).trans hflush⟩
  · exact .inl ⟨rfl, hflush⟩

theorem execute_transfers (s : Session (Host.Journaled σ)) (i : Instruction) :
    ∃ requests, (s.execute i).2.host.transfers = s.host.transfers ++ requests ∧
      i.Transfers (s.execute i).1 requests := by
  by_cases hop : i.opcode = .out
  · obtain ⟨writes, htransfers, hwrites, hfirst, hanswer⟩ :=
      s.host.transfers_writeAll (String.utf8EncodeChar (Word.toChar (i.valueAt 0)))
    simp only [execute, Machine.perform_of_out hop]
    rcases hresult : Host.writeAll s.host (String.utf8EncodeChar (Word.toChar (i.valueAt 0)))
      with ⟨reason | _, host⟩ <;> rw [hresult] at htransfers hanswer
    · refine ⟨writes, (fail_transfers ⟨s.machine, host⟩ _).trans htransfers,
        .character hop (.inr ⟨reason, rfl⟩) hwrites hfirst ?_⟩
      simpa using hanswer
    · refine ⟨writes, htransfers, .character hop (.inl rfl) hwrites hfirst ?_⟩
      simpa using hanswer
  · have hnone := Machine.perform_ne_emit hop s.machine
    rcases hperform : s.machine.perform i with ⟨m, effect⟩
    simp only [execute, hperform]
    cases effect with
    | next | exit => exact ⟨[], (List.append_nil _).symm, .nothing hop (by simp)⟩
    | fault f =>
      exact ⟨[], by rw [fail_transfers, List.append_nil], .nothing hop (by simp)⟩
    | emit c => exact absurd (congrArg Prod.snd hperform) (hnone c)
    | await =>
      -- Only an input instruction asks to wait.
      obtain ⟨hawait, -⟩ | ⟨pc, o, rfl, -, -, -⟩ := Machine.perform_cases hperform
      · exact absurd rfl hawait
      · obtain ⟨hresult, htransfers⟩ | ⟨reason, hresult, htransfers⟩ :=
          awaitInput_transfers ⟨m, s.host⟩ <;> rw [hresult]
        · exact ⟨_, htransfers, .flushed rfl⟩
        · exact ⟨_, htransfers, .refused rfl⟩

end Session

end WordVM
