import WordVM.Proofs.Step

/-!
# Journals

`Host.Journaled` is a host that keeps a journal of everything it is asked for, with its answers. It
answers as the host under it does, so a session on it does what a session on the host alone does,
and the journal tells what that session asks of its host.

This is a case of a fact about any map between hosts that commutes with what hosts do
(`Host.Hom`): sessions commute with it too (`Session.fetch_map`, `Session.execute_map`,
`Session.execTraced_map`). Executions also commute with changes of the machine that do not touch
the effects of instructions (`Session.execute_comm`).
-/

namespace WordVM

namespace Host

variable {σ υ : Type}

section

variable [Host σ] [Host υ]

/-! ## Maps between hosts -/

/-- A map between hosts that commutes with all that can be asked of them. -/
structure Hom (φ : σ → υ) : Prop where
  write : ∀ host bytes,
    Host.write (φ host) bytes = ((Host.write host bytes).1, φ (Host.write host bytes).2)
  flush : ∀ host, Host.flush (φ host) = ((Host.flush host).1, φ (Host.flush host).2)
  log : ∀ host event, Host.log (φ host) event = φ (Host.log host event)

theorem Hom.id : Hom (id : σ → σ) where
  write _ _ := rfl
  flush _ := rfl
  log _ _ := rfl

theorem Hom.writeRest {φ : σ → υ} (h : Hom φ) (host : σ) (taken : Nat) (bytes : List UInt8) :
    writeRest (φ host) taken bytes =
      ((writeRest host taken bytes).1, φ (writeRest host taken bytes).2) := by
  induction bytes generalizing host taken with
  | nil => simp only [Host.writeRest]
  | cons b rest ih =>
    cases taken with
    | succ taken => simpa only [Host.writeRest] using ih host taken
    | zero =>
      simp only [Host.writeRest, h.write]
      obtain ⟨reason | n, host'⟩ := Host.write host (b :: rest)
      · rfl
      · cases n with
        | zero => rfl
        | succ n => exact ih host' n

theorem Hom.writeAll {φ : σ → υ} (h : Hom φ) (host : σ) (bytes : List UInt8) :
    writeAll (φ host) bytes = ((writeAll host bytes).1, φ (writeAll host bytes).2) :=
  h.writeRest host 0 bytes

end

/-! ## Hosts with a journal -/

/-- Something that a host was asked for, and its answer. -/
inductive Request
  /-- To take bytes. -/
  | write (bytes : List UInt8) (answer : Except String Nat)
  /-- To pass on what it holds back. -/
  | flush (answer : Except String Unit)
  /-- To report an event. -/
  | log (event : Log.Event)

/-- The warning that a request reports, if it reports one. -/
def Request.warning? : Request → Option Log.Event
  | .log event => if event.level = .warn then some event else none
  | .write .. | .flush .. => none

/-- A host with a journal of what it was asked for, in order. -/
structure Journaled (σ : Type) where
  host : σ
  journal : List Request

namespace Journaled

/-- A host whose journal is empty so far. -/
def start (host : σ) : Journaled σ := ⟨host, []⟩

/-- The warnings in the journal. -/
def warnings (h : Journaled σ) : List Log.Event := h.journal.filterMap Request.warning?

@[simp] theorem warnings_start (host : σ) : (start host).warnings = [] := rfl

variable [Host σ]

instance : Host (Journaled σ) where
  write h bytes :=
    let (answer, host) := Host.write h.host bytes
    (answer, ⟨host, h.journal ++ [.write bytes answer]⟩)
  flush h :=
    let (answer, host) := Host.flush h.host
    (answer, ⟨host, h.journal ++ [.flush answer]⟩)
  log h event := ⟨Host.log h.host event, h.journal ++ [.log event]⟩

/-- A journal makes no difference to the host under it. -/
theorem hom : Hom (Journaled.host : Journaled σ → σ) where
  write _ _ := rfl
  flush _ := rfl
  log _ _ := rfl

theorem warnings_log (h : Journaled σ) (event : Log.Event) :
    (Host.log h event).warnings =
      h.warnings ++ if event.level = .warn then [event] else [] := by
  simp only [warnings, Host.log, List.filterMap_append]
  by_cases hlevel : event.level = .warn <;> simp [Request.warning?, hlevel]

@[simp] theorem warnings_flush (h : Journaled σ) : (Host.flush h).2.warnings = h.warnings := by
  simp [warnings, Host.flush, Request.warning?]

@[simp] theorem warnings_write (h : Journaled σ) (bytes : List UInt8) :
    (Host.write h bytes).2.warnings = h.warnings := by
  simp [warnings, Host.write, Request.warning?]

theorem warnings_writeRest (h : Journaled σ) (taken : Nat) (bytes : List UInt8) :
    (writeRest h taken bytes).2.warnings = h.warnings := by
  induction bytes generalizing h taken with
  | nil => simp only [writeRest]
  | cons b rest ih =>
    cases taken with
    | succ taken => simpa only [writeRest] using ih h taken
    | zero =>
      have hwrite := h.warnings_write (b :: rest)
      rw [writeRest]
      rcases hresult : Host.write h (b :: rest) with ⟨reason | n, h'⟩ <;> rw [hresult] at hwrite
      · exact hwrite
      · cases n with
        | zero => exact hwrite
        | succ n => exact (ih h' n).trans hwrite

@[simp] theorem warnings_writeAll (h : Journaled σ) (bytes : List UInt8) :
    (writeAll h bytes).2.warnings = h.warnings :=
  h.warnings_writeRest 0 bytes

end Journaled

end Host

namespace Session

variable {σ υ τ : Type}

/-- The same machine on another host. -/
def map (φ : σ → υ) (s : Session σ) : Session υ := ⟨s.machine, φ s.host⟩

variable [Host σ] [Host υ] {φ : σ → υ}

/-! ## Sessions along a map of hosts -/

theorem load_map (h : Host.Hom φ) (s : Session σ) (image : List UInt8) :
    (s.map φ).load image = ((s.load image).1, (s.load image).2.map φ) := by
  unfold load
  split
  · simp only [map, h.log]
  · rfl

theorem loadFile_map (h : Host.Hom φ) (s : Session σ) (file : Except FileError (List UInt8)) :
    (s.map φ).loadFile file = ((s.loadFile file).1, (s.loadFile file).2.map φ) := by
  cases file with
  | ok image => exact load_map h s image
  | error cause => rfl

theorem sendInput_map (h : Host.Hom φ) (s : Session σ) (text : String) :
    (s.map φ).sendInput text = (s.sendInput text).map φ := by
  simp only [sendInput, map, h.log]

theorem fail_map (h : Host.Hom φ) (s : Session σ) (f : Fault) :
    (s.map φ).fail f = (s.fail f).map φ := by
  have hmachine : (s.map φ).machine = s.machine := rfl
  unfold fail
  rw [hmachine]
  cases s.machine.fault with
  | some _ => rfl
  | none => simp only [map, h.log]

theorem fetch_map (h : Host.Hom φ) (s : Session σ) :
    (s.map φ).fetch = (s.fetch.1, s.fetch.2.map φ) := by
  obtain ⟨m, host⟩ := s
  simp only [fetch, map]
  cases m.peek with
  | pastCeiling => rfl
  | invalid word => exact Prod.ext rfl (fail_map h ⟨_, host⟩ _)
  | instruction i fault? =>
    simp only [h.log]
    cases fault? with
    | none => rfl
    | some f => exact Prod.ext rfl (fail_map h ⟨_, _⟩ f)

/-- Waiting goes along with a map of hosts and a change of the machine, if recording faults does. -/
theorem awaitInput_comm (h : Host.Hom φ) {g : Machine → Machine}
    (hfail : ∀ (s : Session σ) f, fail ⟨g s.machine, φ s.host⟩ f =
      ⟨g (s.fail f).machine, φ (s.fail f).host⟩) (s : Session σ) :
    awaitInput ⟨g s.machine, φ s.host⟩ =
      (s.awaitInput.1, ⟨g s.awaitInput.2.machine, φ s.awaitInput.2.host⟩) := by
  obtain ⟨m, host⟩ := s
  simp only [awaitInput, h.flush]
  obtain ⟨reason | _, host'⟩ := Host.flush host
  · exact Prod.ext rfl (hfail ⟨m, host'⟩ _)
  · rfl

/-- If the instruction has the same effect on another machine, then the execution does the same
there, on a host that goes along. -/
theorem execute_comm (h : Host.Hom φ) {g : Machine → Machine}
    (hfail : ∀ (s : Session σ) f, fail ⟨g s.machine, φ s.host⟩ f =
      ⟨g (s.fail f).machine, φ (s.fail f).host⟩) {s : Session σ} {m : Machine} {i : Instruction}
    (hperform : m.perform i = (g (s.machine.perform i).1, (s.machine.perform i).2)) :
    execute ⟨m, φ s.host⟩ i =
      ((s.execute i).1, ⟨g (s.execute i).2.machine, φ (s.execute i).2.host⟩) := by
  obtain ⟨m', host⟩ := s
  simp only [execute, hperform]
  obtain ⟨m', _ | _ | f | c | _⟩ := m'.perform i
  case next | exit => rfl
  case fault => exact Prod.ext rfl (hfail ⟨m', host⟩ f)
  case await => exact awaitInput_comm h hfail ⟨m', host⟩
  case emit =>
    simp only [h.writeAll]
    obtain ⟨reason | _, host'⟩ := Host.writeAll host (String.utf8EncodeChar c)
    · exact Prod.ext rfl (hfail ⟨m', host'⟩ _)
    · rfl

theorem awaitInput_map (h : Host.Hom φ) (s : Session σ) :
    (s.map φ).awaitInput = (s.awaitInput.1, s.awaitInput.2.map φ) :=
  awaitInput_comm (g := id) h (fail_map h) s

theorem execute_map (h : Host.Hom φ) (s : Session σ) (i : Instruction) :
    (s.map φ).execute i = ((s.execute i).1, (s.execute i).2.map φ) :=
  execute_comm (g := id) h (fail_map h) rfl

theorem cycle_map (h : Host.Hom φ) (tracer : Tracer τ) (s : Session σ) (t : τ) :
    cycle tracer (s.map φ) t =
      ((s.cycle tracer t).1, (s.cycle tracer t).2.1.map φ, (s.cycle tracer t).2.2) := by
  unfold cycle
  rw [fetch_map h]
  rcases s.fetch with ⟨f | i, s₁⟩
  · cases f <;> rfl
  · simp only [executeSeen, execute_map h]
    rw [show (s₁.map φ).machine = s₁.machine from rfl]
    rcases s₁.execute i with ⟨_ | _, s₂⟩ <;> rfl

theorem step_map (h : Host.Hom φ) (tracer : Tracer τ) (s : Session σ) (t : τ) :
    step tracer (s.map φ) t =
      ((s.step tracer t).1, (s.step tracer t).2.1.map φ, (s.step tracer t).2.2) := by
  unfold step
  rw [show (s.map φ).machine = s.machine from rfl]
  split
  · rfl
  · cases s.machine.pending with
    | none => exact cycle_map h tracer s t
    | some dest =>
      cases s.machine.takeInput? with
      | some taken => exact cycle_map h tracer ⟨_, s.host⟩ t
      | none =>
        simp only [awaitInput_map h]
        rcases s.awaitInput with ⟨_ | _, s'⟩ <;> rfl

/-- A run goes along with a map of hosts. -/
theorem execTraced_map (h : Host.Hom φ) (tracer : Tracer τ) (limit : Nat) (s : Session σ) (t : τ) :
    execTraced tracer limit (s.map φ) t =
      ((execTraced tracer limit s t).1, (execTraced tracer limit s t).2.1.map φ,
        (execTraced tracer limit s t).2.2) := by
  induction limit generalizing s t with
  | zero => rfl
  | succ limit ih =>
    simp only [execTraced, step_map h]
    rcases s.step tracer t with ⟨_ | _ | _, s', t'⟩
    · exact ih s' t'
    · rfl
    · rfl

theorem exec_map (h : Host.Hom φ) (limit : Nat) (s : Session σ) :
    (s.map φ).exec limit = ((s.exec limit).1, (s.exec limit).2.map φ) := by
  simp only [exec, execTraced_map h]

end Session

end WordVM
