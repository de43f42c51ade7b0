import WordVM.Host.Bounded
import WordVM.Proofs.Step

/-!
# Reliable hosts

A host is reliable if no write to it and no flush of it ever fails. On such a host a session does
what its machine does by itself: `Machine.advance` and `Machine.exec` are steps and runs without a
host, which collect the characters written, and `Session.advance_mirrors` and
`Session.exec_mirrors` say that a session agrees with them and that its host keeps exactly the
bytes of these characters. For a single step it is enough that the host takes what this step writes
(`Host.TakesFitting`, `Session.advance_takes`).

`Machine.Ends` is a run without a limit; `Machine.ends_iff_exec` ties it to runs within one.
-/

namespace WordVM

namespace Host

variable {σ : Type} [Host σ] {kept : σ → List UInt8}

/-- The hosts of a kind take bytes whenever all that they keep then is fitting. Flushes succeed, and
like log events leave it as it is. None of this leads out of the kind. -/
structure TakesFitting (fitting : List UInt8 → Prop) (kept : σ → List UInt8) (good : σ → Prop) :
    Prop where
  writeAll : ∀ {host} (bytes), good host → fitting (kept host ++ bytes) →
    ∃ host', Host.writeAll host bytes = (.ok (), host') ∧ kept host' = kept host ++ bytes ∧
      good host'
  flush : ∀ {host}, good host → ∃ host', Host.flush host = (.ok (), host') ∧
    kept host' = kept host ∧ good host'
  log : ∀ {before} host event, kept host = before ∧ good host →
    kept (Host.log host event) = before ∧ good (Host.log host event)

/-- The hosts of a kind take something of every write and keep what they take. Flushes and log
events leave it as it is. None of this leads out of the kind. -/
structure AcceptsAll (kept : σ → List UInt8) (good : σ → Prop) : Prop where
  write : ∀ host b rest, good host → ∃ n host', write host (b :: rest) = (.ok (n + 1), host') ∧
    kept host' = kept host ++ (b :: rest).take (n + 1) ∧ good host'
  flush : ∀ host, good host → ∃ host', flush host = (.ok (), host') ∧
    kept host' = kept host ∧ good host'
  log : ∀ host event, good host → kept (log host event) = kept host ∧ good (log host event)

/-- No write to the host will ever fail and no flush, and `kept` is what has been written. -/
def Reliable (kept : σ → List UInt8) (host : σ) : Prop := ∃ good, AcceptsAll kept good ∧ good host

namespace Reliable

private theorem writeRest {host : σ} (h : Reliable kept host) (taken : Nat) (bytes : List UInt8) :
    ∃ host', Host.writeRest host taken bytes = (.ok (), host') ∧
      kept host' = kept host ++ bytes.drop taken ∧ Reliable kept host' := by
  induction bytes generalizing host taken with
  | nil => exact ⟨host, by rw [Host.writeRest], by simp, h⟩
  | cons b rest ih =>
    cases taken with
    | succ taken => simpa [Host.writeRest] using ih h taken
    | zero =>
      -- The host takes at least one byte, so the induction goes on with fewer of them.
      obtain ⟨good, accepts, hgood⟩ := h
      obtain ⟨n, host₁, hwrite, hkept, hgood₁⟩ := accepts.write host b rest hgood
      obtain ⟨host', hrest, hkept', h'⟩ := ih ⟨good, accepts, hgood₁⟩ n
      refine ⟨host', ?_, ?_, h'⟩
      · rw [Host.writeRest, hwrite]
        exact hrest
      · rw [hkept', hkept, List.append_assoc, List.take_succ_cons, List.cons_append,
          List.take_append_drop, List.drop_zero]

/-- All bytes are written and kept. -/
theorem writeAll {host : σ} (h : Reliable kept host) (bytes : List UInt8) :
    ∃ host', Host.writeAll host bytes = (.ok (), host') ∧ kept host' = kept host ++ bytes ∧
      Reliable kept host' :=
  h.writeRest 0 bytes

/-- A flush succeeds. -/
theorem flush {host : σ} (h : Reliable kept host) :
    ∃ host', Host.flush host = (.ok (), host') ∧ kept host' = kept host ∧
      Reliable kept host' := by
  obtain ⟨good, accepts, hgood⟩ := h
  obtain ⟨host', hflush, hkept, hgood'⟩ := accepts.flush host hgood
  exact ⟨host', hflush, hkept, good, accepts, hgood'⟩

/-- A log event leaves what has been kept as it is. -/
theorem kept_log {host : σ} (h : Reliable kept host) (event : Log.Event) :
    kept (Host.log host event) = kept host := by
  obtain ⟨good, accepts, hgood⟩ := h
  exact (accepts.log host event hgood).1

theorem log {host : σ} (h : Reliable kept host) (event : Log.Event) :
    Reliable kept (Host.log host event) := by
  obtain ⟨good, accepts, hgood⟩ := h
  exact ⟨good, accepts, (accepts.log host event hgood).2⟩

/-- To a reliable host all bytes are fitting. -/
theorem takes : TakesFitting (fun _ => True) kept (Reliable kept) where
  writeAll bytes h _ := h.writeAll bytes
  flush h := h.flush
  log _ event h := ⟨(h.2.kept_log event).trans h.1, h.2.log event⟩

end Reliable

/-- The bytes that a bounded host has taken. -/
def Bounded.bytes (host : Bounded) : List UInt8 := host.kept.toList

/-- A bounded host without limits is reliable. -/
theorem Bounded.reliable {host : Bounded} (hcapacity : host.capacity = none)
    (hchunk : host.chunk = none) (hflush : host.flushLimit = none) :
    Reliable Bounded.bytes host := by
  -- No operation of a bounded host touches its limits.
  refine ⟨fun host => host.capacity = none ∧ host.chunk = none ∧ host.flushLimit = none, ?_,
    hcapacity, hchunk, hflush⟩
  constructor
  · intro host b rest hgood
    obtain ⟨hcapacity, hchunk, hflush⟩ := hgood
    refine ⟨rest.length, { host with kept := host.kept ++ b :: rest }, ?_, ?_, hcapacity, hchunk,
      hflush⟩
    · simp [Host.write, Bounded.write, Bounded.room, hcapacity, hchunk]
    · simp [Bounded.bytes]
  · intro host hgood
    obtain ⟨hcapacity, hchunk, hflush⟩ := hgood
    refine ⟨{ host with flushes := host.flushes + 1 }, ?_, rfl, hcapacity, hchunk, hflush⟩
    simp [Host.flush, Bounded.flush, hflush]
  · exact fun host event h => ⟨rfl, h⟩

end Host

namespace Machine

/-! ## Machines by themselves -/

/-- How an instruction leaves a run whose host takes everything, with which machine, and the
characters written. -/
def conclude : Machine × Effect → Outcome × Machine × List Char
  | (m, .next) => (.next, m, [])
  | (m, .exit) => (.exit, m, [])
  | (m, .fault f) => (.exit, m.record f, [])
  | (m, .emit c) => (.next, m, [c])
  | (m, .await) => (.needInput, m, [])

/-- What an execution gives on a host that takes everything, with which machine, and the characters
written. -/
def execute (m : Machine) (i : Instruction) : Except Fault Outcome × Machine × List Char :=
  match m.perform i with
  | (m, .next) => (.ok .next, m, [])
  | (m, .exit) => (.ok .exit, m, [])
  | (m, .fault f) => (.error f, m.record f, [])
  | (m, .emit c) => (.ok .next, m, [c])
  | (m, .await) => (.ok .needInput, m, [])

/-- A run goes on or ends as the execution says, and ends with a fault. -/
theorem conclude_perform (m : Machine) (i : Instruction) :
    conclude (m.perform i) =
      match m.execute i with
      | (.ok outcome, rest) => (outcome, rest)
      | (.error _, rest) => (.exit, rest) := by
  unfold execute
  obtain ⟨m', _ | _ | f | c | _⟩ := m.perform i <;> rfl

/-- One fetch and one execution, and the characters written. -/
def runOne (m : Machine) : Outcome × Machine × List Char :=
  match m.fetch with
  | (.error _, m) => (.exit, m, [])
  | (.ok i, m) => conclude (m.perform i)

/-- One step of a run, and the characters written. -/
def advance (m : Machine) : Outcome × Machine × List Char :=
  if m.stopped then
    (.exit, m, [])
  else
    match m.resume? with
    | some m => m.runOne
    | none => (.needInput, m, [])

/-- A run of at most `limit` steps, and the characters written. -/
def exec : (limit : Nat) → Machine → Outcome × Machine × List Char
  | 0, m => (.next, m, [])
  | limit + 1, m =>
    match m.advance with
    | (.next, m, out) =>
      let (outcome, m, more) := exec limit m
      (outcome, m, out ++ more)
    | result => result

/-- A run comes to its end or waits for input: how, with which machine, and after which
characters written. -/
inductive Ends : Machine → Outcome → Machine → List Char → Prop
  | last {m m' : Machine} {outcome : Outcome} {out : List Char}
      (step : m.advance = (outcome, m', out)) (ended : outcome ≠ .next) : Ends m outcome m' out
  | next {m m₁ m' : Machine} {outcome : Outcome} {out₁ out : List Char}
      (step : m.advance = (.next, m₁, out₁)) (rest : Ends m₁ outcome m' out) :
      Ends m outcome m' (out₁ ++ out)

namespace Ends

variable {m m' : Machine} {outcome : Outcome} {out : List Char}

theorem ne_next (h : Ends m outcome m' out) : outcome ≠ .next := by
  induction h with
  | last _ ended => exact ended
  | next _ _ ih => exact ih

/-- A run has one end only. -/
theorem unique {m'' : Machine} {outcome' : Outcome} {out' : List Char}
    (h : Ends m outcome m' out) (h' : Ends m outcome' m'' out') :
    outcome' = outcome ∧ m'' = m' ∧ out' = out := by
  induction h generalizing outcome' m'' out' with
  | last step ended =>
    cases h' with
    | last step' ended' => simp_all
    | next step' rest' => simp_all
  | next step rest ih =>
    cases h' with
    | last step' ended' => simp_all
    | next step' rest' =>
      cases step.symm.trans step'
      obtain ⟨rfl, rfl, rfl⟩ := ih rest'
      exact ⟨rfl, rfl, rfl⟩

end Ends

/-- A run has an end exactly if some limit is high enough for it. -/
theorem ends_iff_exec {m m' : Machine} {outcome : Outcome} {out : List Char} :
    Ends m outcome m' out ↔ ∃ limit, m.exec limit = (outcome, m', out) ∧ outcome ≠ .next := by
  constructor
  · intro h
    induction h with
    | @last m m' outcome out step ended =>
      -- One step is enough for the last one, and every step before it takes one more.
      refine ⟨1, ?_, ended⟩
      rw [exec, step]
      cases outcome <;> first | rfl | exact absurd rfl ended
    | next step _ ih =>
      obtain ⟨limit, hexec, ended⟩ := ih
      exact ⟨limit + 1, by simp only [exec, step, hexec], ended⟩
  · intro hexec
    obtain ⟨limit, h, ended⟩ := hexec
    induction limit generalizing m out with
    | zero => simp_all [exec]
    | succ limit ih =>
      rw [exec] at h
      rcases hstep : m.advance with ⟨_ | _ | _, m₁, out₁⟩
      · simp only [hstep, Prod.mk.injEq] at h
        obtain ⟨ho, hm, rfl⟩ := h
        exact .next hstep (ih (by rw [← ho, ← hm]))
      · simp only [hstep] at h
        exact .last (hstep.trans h) ended
      · simp only [hstep] at h
        exact .last (hstep.trans h) ended

end Machine

namespace Session

variable {σ : Type} [Host σ] {kept : σ → List UInt8}

/-- A session that has never been loaded, on a host without limits. -/
def fresh : Session Host.Bounded := ⟨.initial, {}⟩

theorem fresh_reliable : Host.Reliable Host.Bounded.bytes fresh.host :=
  Host.Bounded.reliable rfl rfl rfl

/-- A session on a host has come to the result that its machine comes to by itself. The host has
kept the characters written and is still good. -/
structure Mirrors {α : Type} (good : σ → Prop) (kept : σ → List UInt8) (host : σ)
    (result : α × Session σ) (plain : α × Machine × List Char) : Prop where
  outcome_eq : result.1 = plain.1
  machine_eq : result.2.machine = plain.2.1
  kept_eq : kept result.2.host = kept host ++ plain.2.2.flatMap String.utf8EncodeChar
  good_host : good result.2.host

/-! ## Sessions on hosts that take what is written -/

section

variable {fitting : List UInt8 → Prop} {good : σ → Prop} {s : Session σ}

/-- A host lets the machine wait. -/
theorem awaitInput_takes (h : Host.TakesFitting fitting kept good) (hs : good s.host) :
    ∃ host, s.awaitInput = (.ok .needInput, ⟨s.machine, host⟩) ∧ kept host = kept s.host ∧
      good host := by
  obtain ⟨host, hflush, hsame⟩ := h.flush hs
  exact ⟨host, by rw [awaitInput, hflush], hsame⟩

/-- A fetch writes nothing. -/
theorem fetch_takes (h : Host.TakesFitting fitting kept good) (hs : good s.host) :
    Mirrors good kept s.host s.fetch (s.machine.fetch.1, s.machine.fetch.2, []) := by
  obtain ⟨hkept, hgood⟩ := fetch_host h.log ⟨rfl, hs⟩
  exact ⟨s.fetch_fst, s.fetch_machine, by simpa using hkept, hgood⟩

/-- An execution whose character is taken fails only if the instruction itself does. -/
theorem execute_takes (h : Host.TakesFitting fitting kept good) (hs : good s.host) (i : Instruction)
    (hfitting : fitting
      (kept s.host ++ (s.machine.execute i).2.2.flatMap String.utf8EncodeChar)) :
    Mirrors good kept s.host (s.execute i) (s.machine.execute i) := by
  unfold execute Machine.execute at *
  rcases hperform : s.machine.perform i with ⟨m, _ | _ | f | c | _⟩ <;> rw [hperform] at hfitting <;>
    simp only [hperform]
  · exact ⟨rfl, rfl, by simp, hs⟩
  · exact ⟨rfl, rfl, by simp, hs⟩
  · obtain ⟨hkept, hgood⟩ := fail_host (s := ⟨m, s.host⟩) h.log ⟨rfl, hs⟩ f
    exact ⟨rfl, fail_machine .., by simpa using hkept, hgood⟩
  · -- This is the only effect that adds to what the host keeps.
    obtain ⟨host, hwrite, hkept, hgood⟩ :=
      h.writeAll (String.utf8EncodeChar c) hs (by simpa using hfitting)
    simp only [hwrite]
    exact ⟨rfl, rfl, by simpa using hkept, hgood⟩
  · obtain ⟨host, hawait, hkept, hgood⟩ := awaitInput_takes (s := ⟨m, s.host⟩) h hs
    simp only [hawait]
    exact ⟨rfl, rfl, by simpa using hkept, hgood⟩

theorem runOne_takes (h : Host.TakesFitting fitting kept good) (hs : good s.host)
    (hfitting : fitting (kept s.host ++ s.machine.runOne.2.2.flatMap String.utf8EncodeChar)) :
    Mirrors good kept s.host s.runOne s.machine.runOne := by
  have hfetched := fetch_takes h hs
  unfold runOne Machine.runOne at *
  rcases hfetch : s.fetch with ⟨f | i, s₁⟩ <;> rw [hfetch] at hfetched <;>
    rw [machine_fetch_eq hfetch] at hfetched hfitting ⊢
  · exact ⟨rfl, rfl, hfetched.kept_eq, hfetched.good_host⟩
  · have hkept : kept s₁.host = kept s.host := by simpa using hfetched.kept_eq
    dsimp only at hfitting ⊢
    rw [Machine.conclude_perform] at hfitting ⊢
    have hexecuted := execute_takes (s := s₁) h hfetched.good_host i
    rw [hkept] at hexecuted
    -- The execution gives the same with the host and without it, so it fails in both or in neither.
    rcases hexecute : s₁.execute i with ⟨_ | _, s₂⟩ <;>
      rcases hplain : s₁.machine.execute i with ⟨_ | _, m, out⟩ <;>
      rw [hplain] at hfitting <;> rw [hexecute, hplain] at hexecuted <;>
      obtain ⟨houtcome, hmachine, hkept', hgood⟩ := hexecuted hfitting <;> cases houtcome <;>
      rw [hkept] at hkept'
    · exact ⟨rfl, hmachine, hkept', hgood⟩
    · exact ⟨rfl, hmachine, hkept', hgood⟩

/-- A step whose output is taken is a step of the machine by itself. -/
theorem advance_takes (h : Host.TakesFitting fitting kept good) (hs : good s.host)
    (hfitting : fitting (kept s.host ++ s.machine.advance.2.2.flatMap String.utf8EncodeChar)) :
    Mirrors good kept s.host s.advance s.machine.advance := by
  unfold advance Machine.advance at *
  split
  · exact ⟨rfl, rfl, by simp, hs⟩
  · next hrunning =>
    rw [if_neg hrunning] at hfitting
    cases hresume : s.machine.resume? with
    | some m =>
      rw [hresume] at hfitting
      exact runOne_takes (s := ⟨m, s.host⟩) h hs hfitting
    | none =>
      obtain ⟨host, hawait, hkept, hgood⟩ := awaitInput_takes h hs
      simp only [hawait]
      exact ⟨rfl, rfl, by simpa using hkept, hgood⟩

end

/-! ## Sessions on reliable hosts -/

/-- On a reliable host an execution is one of the machine by itself. -/
theorem execute_mirrors {s : Session σ} (h : Host.Reliable kept s.host) (i : Instruction) :
    Mirrors (Host.Reliable kept) kept s.host (s.execute i) (s.machine.execute i) :=
  execute_takes Host.Reliable.takes h i trivial

/-- On a reliable host a step is a step of the machine by itself. -/
theorem advance_mirrors {s : Session σ} (h : Host.Reliable kept s.host) :
    Mirrors (Host.Reliable kept) kept s.host s.advance s.machine.advance :=
  advance_takes Host.Reliable.takes h trivial

/-- On a reliable host a run is a run of the machine by itself. -/
theorem exec_mirrors {s : Session σ} (h : Host.Reliable kept s.host) (limit : Nat) :
    Mirrors (Host.Reliable kept) kept s.host (s.exec limit) (s.machine.exec limit) := by
  induction limit generalizing s with
  | zero => exact ⟨rfl, rfl, by simp [exec_zero, Machine.exec], h⟩
  | succ limit ih =>
    obtain ⟨houtcome, hmachine, hkept, hreliable⟩ := advance_mirrors h
    rw [exec_succ, Machine.exec]
    rcases hstep : s.advance with ⟨_ | _ | _, s₁⟩ <;>
      rcases hplain : s.machine.advance with ⟨_, m₁, out₁⟩ <;>
      simp only [hstep, hplain] at houtcome hmachine hkept hreliable <;> subst houtcome
    -- The rest of the run starts from the same machine, on a host that is still reliable.
    · obtain ⟨houtcome', hmachine', hkept', hreliable'⟩ := ih hreliable
      rw [hmachine] at houtcome' hmachine' hkept'
      exact ⟨houtcome', hmachine', by simp [hkept', hkept], hreliable'⟩
    · exact ⟨rfl, hmachine, hkept, hreliable⟩
    · exact ⟨rfl, hmachine, hkept, hreliable⟩

end Session

end WordVM
