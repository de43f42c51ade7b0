import WordVM.Proofs.History

/-!
# The first fault is the last word

Between two loads the fault of a session can come but neither change nor go, and the halt flag can
only be set. The moment a fault comes is the one moment at which a warning is logged.

`Session.Follows` says this of two sessions on hosts with a journal, the first before the second.
Whatever a session does leads to one that follows (`fetch_follows`, `execute_follows`,
`awaitInput_follows`), and so does a history without a load (`replay_follows`). `first_fault_final`
is the result for histories on any host.
-/

namespace WordVM

namespace Session

variable {σ : Type}

/-- What a session can have become when no program has been loaded since: a halted machine is
halted still, and either fault and warnings are as they were, or the first fault has been recorded
since, with one warning. -/
structure Follows (s s' : Session (Host.Journaled σ)) : Prop where
  halted : s.machine.halted = true → s'.machine.halted = true
  fault : (s'.machine.fault = s.machine.fault ∧ s'.host.warnings = s.host.warnings) ∨
    ∃ pc f, s.machine.fault = none ∧ s'.machine.fault = some f ∧
      s'.host.warnings = s.host.warnings ++ [.stopping pc f]

namespace Follows

variable {s s' s'' : Session (Host.Journaled σ)}

theorem refl (s : Session (Host.Journaled σ)) : s.Follows s := ⟨id, .inl ⟨rfl, rfl⟩⟩

/-- A second first fault cannot come after the first one. -/
theorem trans (h : s.Follows s') (h' : s'.Follows s'') : s.Follows s'' := by
  refine ⟨h'.halted ∘ h.halted, ?_⟩
  rcases h.fault with ⟨hfault, hwarnings⟩ | ⟨pc, f, hnone, hfault, hwarnings⟩ <;>
    rcases h'.fault with ⟨hfault', hwarnings'⟩ | ⟨pc', f', hnone', hfault', hwarnings'⟩
  · exact .inl ⟨hfault'.trans hfault, hwarnings'.trans hwarnings⟩
  · exact .inr ⟨pc', f', hfault ▸ hnone', hfault', hwarnings ▸ hwarnings'⟩
  · exact .inr ⟨pc, f, hnone, hfault'.trans hfault, hwarnings'.trans hwarnings⟩
  · rw [hfault] at hnone'
    cases hnone'

/-- Changes to the rest of the machine and requests that are no warnings do not matter. -/
theorem of_same {m m' : Machine} {host host' : Host.Journaled σ}
    (hhalted : m.halted = true → m'.halted = true) (hfault : m'.fault = m.fault)
    (hwarnings : host'.warnings = host.warnings) : Follows ⟨m, host⟩ ⟨m', host'⟩ :=
  ⟨hhalted, .inl ⟨hfault, hwarnings⟩⟩

end Follows

variable [Host σ]

/-! ## Operations of a session -/

theorem fail_follows (s : Session (Host.Journaled σ)) (f : Fault) : s.Follows (s.fail f) := by
  unfold fail
  cases hfault : s.machine.fault with
  | some _ => exact .refl s
  | none =>
    refine ⟨id, .inr ⟨s.machine.pc, f, hfault, rfl, ?_⟩⟩
    rw [Host.Journaled.warnings_log]
    rfl

theorem fetch_follows (s : Session (Host.Journaled σ)) : s.Follows s.fetch.2 := by
  obtain ⟨m, host⟩ := s
  simp only [fetch]
  cases m.peek with
  | pastCeiling => exact .refl _
  | invalid word =>
    have hmoved : Follows ⟨m, host⟩ ⟨{ m with pc := m.pc + 2 }, host⟩ := .of_same id rfl rfl
    exact hmoved.trans (fail_follows _ (.invalidOpcode word))
  | instruction i fault? =>
    -- The event of a fetch is not a warning.
    have hmoved : Follows ⟨m, host⟩ ⟨{ m with pc := m.pc + i.opcode.width },
        Host.log host (.fetched i.opcode m.pc)⟩ :=
      .of_same id rfl (by simp [Host.Journaled.warnings_log, Log.Event.level])
    cases fault? with
    | none => exact hmoved
    | some f => exact hmoved.trans (fail_follows _ f)

theorem awaitInput_follows (s : Session (Host.Journaled σ)) : s.Follows s.awaitInput.2 := by
  have hwarnings := s.host.warnings_flush
  unfold awaitInput
  rcases hflush : Host.flush s.host with ⟨reason | _, host⟩ <;> rw [hflush] at hwarnings
  · have hflushed : s.Follows ⟨s.machine, host⟩ := .of_same id rfl hwarnings
    exact hflushed.trans (fail_follows _ (.output reason))
  · exact .of_same id rfl hwarnings

theorem execute_follows (s : Session (Host.Journaled σ)) (i : Instruction) :
    s.Follows (s.execute i).2 := by
  obtain ⟨m, host⟩ := s
  have hhalted := m.perform_halted i
  have hfault := m.perform_fault i
  simp only [execute]
  rcases hperform : m.perform i with ⟨m', effect⟩
  rw [hperform] at hhalted hfault
  have hperformed {host' : Host.Journaled σ} (hwarnings : host'.warnings = host.warnings) :
      Follows ⟨m, host⟩ ⟨m', host'⟩ :=
    .of_same (fun h => hhalted.mpr (.inl h)) hfault hwarnings
  cases effect with
  | next | exit => exact hperformed rfl
  | fault f => exact (hperformed rfl).trans (fail_follows _ f)
  | await => exact (hperformed rfl).trans (awaitInput_follows ⟨m', host⟩)
  | emit c =>
    have hwarnings := host.warnings_writeAll (String.utf8EncodeChar c)
    dsimp only
    rcases hwrite : Host.writeAll host (String.utf8EncodeChar c) with ⟨reason | _, host'⟩ <;>
      rw [hwrite] at hwarnings
    · exact (hperformed hwarnings).trans (fail_follows _ (.output reason))
    · exact hperformed hwarnings

theorem sendInput_follows (s : Session (Host.Journaled σ)) (text : String) :
    s.Follows (s.sendInput text) :=
  .of_same id rfl (by simp [Host.Journaled.warnings_log, Log.Event.level])

/-- What follows a session is followed by all that comes of it without a load. -/
theorem follows_invariant (s : Session (Host.Journaled σ)) : Invariant s.Follows where
  send text h := h.trans (sendInput_follows _ text)
  fetch h := h.trans (fetch_follows _)
  execute i h := h.trans (execute_follows _ i)
  awaitInput h := h.trans (awaitInput_follows _)
  resume hresume h := by
    obtain ⟨-, hhalted, hfault⟩ := Machine.resume?_eq_some hresume
    exact h.trans (.of_same (fun h => hhalted.trans h) hfault rfl)

/-! ## Histories -/

namespace Usage

theorem replay_follows {operations : List Operation}
    (h : ∀ operation ∈ operations, operation.reloads = false) (u : Usage (Host.Journaled σ)) :
    u.session.Follows (u.replay operations).session := by
  induction operations generalizing u with
  | nil => exact .refl _
  | cons operation rest ih =>
    rw [List.forall_mem_cons] at h
    have hfirst : u.session.Follows (u.perform operation).session :=
      perform_invariant u.session.follows_invariant (by simp [h.1]) (.refl _)
    exact hfirst.trans (ih h.2 _)

/-- A load that succeeds reports no warning. -/
theorem warnings_perform_of_reloads {operation : Operation} (h : operation.reloads = true)
    (u : Usage (Host.Journaled σ)) :
    (u.perform operation).session.host.warnings = u.session.host.warnings := by
  have hload (image : List UInt8) : (u.session.load image).2.host.warnings =
      u.session.host.warnings := by
    unfold load
    split
    · simp [Host.Journaled.warnings_log, Log.Event.level]
    · rfl
  cases operation with
  | load image => exact hload image
  | loadFile file =>
    cases file with
    | ok image => exact hload image
    | error cause => cases h
  | send | exec | execTraced | fetch | execute => cases h

end Usage

/-- The first fault and a halt are final. Take any session in use, with any instructions seen.
* A history without a load leaves a fault as it is and the halt flag set. If it makes the first
  fault come, then it logs one warning, of this very fault, and otherwise it logs none.
* A load logs no warning.
* When the machine has halted or has a fault, a run ends at once and changes nothing, on the machine
  or the host or with the tracer, and text that is sent is added to the input and nothing else. -/
theorem first_fault_final (u : Usage σ) :
    (∀ operations : List Operation, (∀ operation ∈ operations, operation.reloads = false) →
      let u' := u.replay operations
      let noted := (u.map Host.Journaled.start).replay operations
      noted.map Host.Journaled.host = u' ∧
        (∀ f, u.session.machine.fault = some f → u'.session.machine.fault = some f) ∧
        (u.session.machine.halted = true → u'.session.machine.halted = true) ∧
        (∀ f, u.session.machine.fault = none → u'.session.machine.fault = some f →
          ∃ pc, noted.session.host.warnings = [.stopping pc f]) ∧
        (u.session.machine.fault ≠ none ∨ u'.session.machine.fault = none →
          noted.session.host.warnings = [])) ∧
    (∀ operation : Operation, operation.reloads = true →
      ((u.map Host.Journaled.start).perform operation).session.host.warnings = []) ∧
    (u.session.machine.stopped = true → ∀ limit text,
      u.session.exec (limit + 1) = (.exit, u.session) ∧
        (∀ {τ : Type} (tracer : Tracer τ) (t : τ),
          execTraced tracer (limit + 1) u.session t = (.exit, u.session, t)) ∧
        (u.session.sendInput text).machine =
          { u.session.machine with input := (u.session.sendInput text).machine.input } ∧
        ((u.session.map Host.Journaled.start).sendInput text).host.journal =
          [.log (.inputReceived text.length)]) := by
  refine ⟨fun operations hloads => ?_, fun operation hload => ?_, fun hstopped limit text => ?_⟩
  · intro u' noted
    -- A journal makes no difference, so what it tells holds of the history without one.
    have hsame : noted.map Host.Journaled.host = u' :=
      (Usage.replay_map Host.Journaled.hom operations (u.map Host.Journaled.start)).symm
    have hmachine : noted.session.machine = u'.session.machine := by rw [← hsame]; rfl
    have hstart : (u.map Host.Journaled.start).session.host.warnings = [] :=
      Host.Journaled.warnings_start u.session.host
    obtain ⟨hhalted, hfault⟩ := Usage.replay_follows hloads (u.map Host.Journaled.start)
    change _ → noted.session.machine.halted = true at hhalted
    change (noted.session.machine.fault = u.session.machine.fault ∧ _) ∨ _ at hfault
    rw [hmachine] at hhalted hfault
    rw [hstart] at hfault
    -- Either nothing has been recorded, or the first fault has, with its warning.
    rcases hfault with ⟨hfault, hwarnings⟩ | ⟨pc, f, hnone, hfault, hwarnings⟩
    · refine ⟨hsame, fun f h => hfault.trans h, hhalted, fun f hnone h => ?_, fun _ => hwarnings⟩
      cases hnone.symm.trans (hfault.symm.trans h)
    · change u.session.machine.fault = none at hnone
      refine ⟨hsame, fun f' h => ?_, hhalted, fun f' _ h => ⟨pc, ?_⟩, fun h => ?_⟩
      · cases hnone.symm.trans h
      · cases hfault.symm.trans h
        exact hwarnings
      · rcases h with h | h
        · exact absurd hnone h
        · cases hfault.symm.trans h
  · exact Usage.warnings_perform_of_reloads hload (u.map Host.Journaled.start)
  · exact ⟨exec_of_stopped hstopped limit,
      fun tracer t => execTraced_of_stopped hstopped tracer limit t, rfl, rfl⟩

/-- The program divides by a bad operand word, which reads as zero, and no opcode follows. The bad
operand stays the fault when the division fails, when the next fetch fails, and when the division
fails again. -/
theorem first_fault_final_badDivisor :
    let u := (Usage.start ({} : Host.Bounded)).perform (.load [11, 0, 0, 128, 5, 0, 64, 156, 99, 0])
    let operations := [.execTraced 9, .fetch, .execute 0]
    let u' := u.replay operations
    let noted := (u.map Host.Journaled.start).replay operations
    u.session.machine.fault = none ∧ u'.session.machine.pc = 10 ∧ u'.seen.length = 1 ∧
      u'.session.machine.fault = some (.invalidNumber 40000) ∧
      ∃ pc, noted.session.host.warnings = [.stopping pc (.invalidNumber 40000)] := by
  intro u operations u' noted
  have hnone : u.session.machine.fault = none := by decide +kernel
  have hfault : u'.session.machine.fault = some (.invalidNumber 40000) := by decide +kernel
  obtain ⟨hhistory, -, -⟩ := first_fault_final u
  obtain ⟨-, -, -, hwarning, -⟩ := hhistory operations (by decide)
  exact ⟨hnone, by decide +kernel, by decide +kernel, hfault, hwarning _ hnone hfault⟩

end Session

end WordVM
