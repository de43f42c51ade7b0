import WordVM.Proofs.Failing
import WordVM.Proofs.History

/-!
# Prompts

What a program has written before it waits for input is out by then: a run that waits flushes, and
writes nothing after that. No other run flushes, except for one that would have waited and whose
flush fails. So what is transferred in a run is some bytes, and then what `Machine.Closes` says of
its outcome (`Session.Prompts`, `Session.exec_prompts`).

Over a history this makes as many successful flushes as there are answers that say that the machine
waits (`Session.Usage.replay_flushes`).
-/

namespace WordVM

/-- How the output of a run is closed that ends with an outcome and leaves a machine behind. -/
inductive Machine.Closes (m : Machine) : Outcome → List Host.Request → Prop
  /-- A run that does not wait need not flush. -/
  | unflushed {outcome : Outcome} (h : outcome ≠ .needInput) : Closes m outcome []
  /-- A run that waits has flushed. -/
  | flushed : Closes m .needInput [.flush (.ok ())]
  /-- A run that would have waited is over if the flush fails. -/
  | refused {reason : String} (hfault : m.fault ≠ none) : Closes m .exit [.flush (.error reason)]

namespace Host.Journaled

variable {σ : Type}

/-- How the host answered the flushes in the journal. -/
def flushes (h : Journaled σ) : List (Except String Unit) :=
  h.transfers.filterMap Request.flushed?

theorem flushes_eq_of_transfers_eq {h h' : Journaled σ} (hsame : h'.transfers = h.transfers) :
    h'.flushes = h.flushes :=
  congrArg (List.filterMap Request.flushed?) hsame

end Host.Journaled

/-- Writes are not flushes. -/
theorem Host.Request.filterMap_flushed?_of_isWrite {writes : List Host.Request}
    (h : ∀ request ∈ writes, request.isWrite = true) : writes.filterMap flushed? = [] := by
  rw [List.filterMap_eq_nil_iff]
  intro request hrequest
  have hwrite := h request hrequest
  cases request with
  | write bytes answer => rfl
  | flush answer => cases hwrite
  | log event => rfl

namespace Session

variable {σ υ τ : Type} {s s₁ s₂ : Session (Host.Journaled σ)} {outcome : Outcome}

/-- Between two sessions some bytes have been written, and then the output has been closed. -/
def Prompts (s : Session (Host.Journaled σ)) (outcome : Outcome)
    (s' : Session (Host.Journaled σ)) : Prop :=
  ∃ writes last, s'.host.transfers = s.host.transfers ++ (writes ++ last) ∧
    (∀ request ∈ writes, request.isWrite = true) ∧ s'.machine.Closes outcome last

namespace Prompts

/-- Nothing has been transferred. -/
theorem of_transfers_eq (h : s₁.host.transfers = s.host.transfers) (hwait : outcome ≠ .needInput) :
    s.Prompts outcome s₁ :=
  ⟨[], [], by simpa using h, by simp, .unflushed hwait⟩

/-- As long as the next instruction can follow, no output is closed. -/
theorem trans (h : s.Prompts .next s₁) (h' : s₁.Prompts outcome s₂) : s.Prompts outcome s₂ := by
  obtain ⟨writes, last, htransfers, hwrites, hcloses⟩ := h
  obtain ⟨writes', last', htransfers', hwrites', hcloses'⟩ := h'
  cases hcloses
  refine ⟨writes ++ writes', last', ?_, ?_, hcloses'⟩
  · rw [htransfers', htransfers, List.append_nil, List.append_assoc, List.append_assoc]
  · simpa [or_imp, forall_and] using ⟨hwrites, hwrites'⟩

/-- One flush at most has been tried. It succeeded if the session waits, and only then, and if it
failed then the run is over. -/
theorem exists_flushes (h : s.Prompts outcome s₁) :
    ∃ flushes, s₁.host.flushes = s.host.flushes ++ flushes ∧ flushes.length ≤ 1 ∧
      flushes.count (.ok ()) = [outcome].count .needInput ∧
      ∀ reason, .error reason ∈ flushes → outcome = .exit ∧ s₁.machine.fault ≠ none := by
  obtain ⟨writes, last, htransfers, hwrites, hcloses⟩ := h
  refine ⟨last.filterMap Host.Request.flushed?, ?_, ?_⟩
  · simp only [Host.Journaled.flushes, htransfers, List.filterMap_append,
      Host.Request.filterMap_flushed?_of_isWrite hwrites, List.nil_append]
  · cases hcloses with
    | unflushed hwait =>
      have hnone : [outcome].count .needInput = 0 :=
        List.count_eq_zero.mpr (by simpa using hwait.symm)
      simp [hnone]
    | flushed => simp [Host.Request.flushed?]
    | refused hfault => simp [Host.Request.flushed?, hfault]

theorem count_flushes (h : s.Prompts outcome s₁) :
    s₁.host.flushes.count (.ok ()) =
      s.host.flushes.count (.ok ()) + [outcome].count .needInput := by
  obtain ⟨flushes, hflushes, -, hcount, -⟩ := h.exists_flushes
  rw [hflushes, List.count_append, hcount]

/-- A session that waits has flushed last. -/
theorem getLast?_transfers (h : s.Prompts .needInput s₁) :
    s₁.host.transfers.getLast? = some (.flush (.ok ())) := by
  obtain ⟨writes, last, htransfers, -, hcloses⟩ := h
  cases hcloses with
  | unflushed hwait => exact absurd rfl hwait
  | flushed => rw [htransfers, ← List.append_assoc, List.getLast?_concat]

end Prompts

variable [Host σ] [Host υ]

/-! ## Steps -/

/-- An instruction that waits flushes, and one that fails to flush ends the run. -/
theorem execute_prompts (s : Session (Host.Journaled σ)) (i : Instruction) :
    s.Prompts ((s.execute i).1.toOption.getD .exit) (s.execute i).2 := by
  obtain ⟨requests, htransfers, hkind⟩ := s.execute_transfers i
  rcases hexecute : s.execute i with ⟨result, s'⟩
  rw [hexecute] at htransfers hkind
  dsimp only at htransfers hkind
  cases hkind with
  | nothing hop hwait =>
    rw [List.append_nil] at htransfers
    cases result with
    | ok outcome => exact .of_transfers_eq htransfers (fun h => hwait (congrArg Except.ok h))
    | error f => exact .of_transfers_eq htransfers (by simp [Except.toOption])
  | character hop hresult hwrites =>
    have hclosed : s'.host.transfers = s.host.transfers ++ (requests ++ []) := by
      rw [htransfers, List.append_nil]
    obtain rfl | ⟨reason, rfl⟩ := hresult <;>
      exact ⟨requests, [], hclosed, hwrites, .unflushed (by simp [Except.toOption])⟩
  | flushed => exact ⟨[], _, htransfers, by simp, .flushed⟩
  | @refused reason hop =>
    -- The fault is recorded, if there was none before.
    have hfailed := (execute_of_fails (fails_of_execute (congrArg Prod.fst hexecute))).2
    rw [hexecute] at hfailed
    dsimp only at hfailed
    exact ⟨[], _, htransfers, by simp, .refused (by simp [hfailed])⟩

theorem runOne_prompts (s : Session (Host.Journaled σ)) : s.Prompts s.runOne.1 s.runOne.2 := by
  have hfetched := s.fetch_transfers
  rcases hfetch : s.fetch with ⟨f | i, s₁⟩ <;> rw [hfetch] at hfetched
  · rw [runOne, hfetch]
    exact .of_transfers_eq hfetched (by simp)
  · have hfirst : s.Prompts .next s₁ := .of_transfers_eq hfetched (by simp)
    rw [runOne_of_fetch hfetch]
    exact hfirst.trans (s₁.execute_prompts i)

/-- A session that waits once more flushes once more. -/
theorem awaitInput_prompts (s : Session (Host.Journaled σ)) :
    s.Prompts (s.awaitInput.1.toOption.getD .exit) s.awaitInput.2 := by
  rcases hawait : s.awaitInput with ⟨result, s'⟩
  obtain ⟨hresult, htransfers⟩ | ⟨reason, hresult, htransfers⟩ := s.awaitInput_transfers <;>
    rw [hawait] at hresult htransfers <;> obtain rfl := hresult
  · exact ⟨[], _, htransfers, by simp, .flushed⟩
  · have hfault : s'.machine.fault ≠ none := by
      obtain ⟨_, h⟩ | ⟨_, _, h⟩ := s.awaitInput_cases <;> cases hawait.symm.trans h
      simp [Machine.record]
    exact ⟨[], _, htransfers, by simp, .refused hfault⟩

theorem advance_prompts (s : Session (Host.Journaled σ)) : s.Prompts s.advance.1 s.advance.2 := by
  unfold advance
  split
  · exact .of_transfers_eq rfl (by simp)
  · cases s.machine.resume? with
    | some m => exact runOne_prompts ⟨m, s.host⟩
    | none =>
      have hprompts := s.awaitInput_prompts
      dsimp only
      rcases hawait : s.awaitInput with ⟨_ | _, s'⟩ <;> rw [hawait] at hprompts <;> exact hprompts

/-! ## Runs and histories -/

/-- A run writes, and closes its output in the end. -/
theorem exec_prompts (s : Session (Host.Journaled σ)) (limit : Nat) :
    s.Prompts (s.exec limit).1 (s.exec limit).2 := by
  induction limit generalizing s with
  | zero => exact .of_transfers_eq rfl (by simp [exec_zero])
  | succ limit ih =>
    have hfirst := s.advance_prompts
    rw [exec_succ]
    rcases hadvance : s.advance with ⟨_ | _ | _, s₁⟩ <;> rw [hadvance] at hfirst
    · exact hfirst.trans (ih s₁)
    · exact hfirst
    · exact hfirst

theorem execTraced_prompts (tracer : Tracer τ) (limit : Nat) (s : Session (Host.Journaled σ))
    (t : τ) :
    s.Prompts (execTraced tracer limit s t).1 (execTraced tracer limit s t).2.1 := by
  have hsame := execTraced_eq_exec tracer limit s t
  have hprompts := s.exec_prompts limit
  rwa [← hsame] at hprompts

namespace Usage

/-- The outcome that the user is told of when using an operation, if there is one. -/
def outcome? (u : Usage σ) : Operation → Option Outcome
  | .exec limit => some (u.session.exec limit).1
  | .execTraced limit => some (Session.execTraced .recorder limit u.session []).1
  | .execute k => u.seen[k]?.bind fun i => (u.session.execute i).1.toOption
  | .load _ | .loadFile _ | .send _ | .fetch => none

/-- The outcomes that the user is told of when using operations one after the other. -/
def outcomes : List Operation → Usage σ → List Outcome
  | [], _ => []
  | operation :: rest, u => (u.outcome? operation).toList ++ outcomes rest (u.perform operation)

theorem outcome?_map {φ : σ → υ} (h : Host.Hom φ) (u : Usage σ) (operation : Operation) :
    (u.map φ).outcome? operation = u.outcome? operation := by
  cases operation with
  | exec limit => simp only [outcome?, map, exec_map h]
  | execTraced limit => simp only [outcome?, map, execTraced_map h]
  | execute k => simp only [outcome?, map, execute_map h]
  | load image | loadFile file | send text | fetch => rfl

theorem outcomes_map {φ : σ → υ} (h : Host.Hom φ) (operations : List Operation) (u : Usage σ) :
    (u.map φ).outcomes operations = u.outcomes operations := by
  induction operations generalizing u with
  | nil => rfl
  | cons operation rest ih => rw [outcomes, outcomes, perform_map h, outcome?_map h, ih]

/-- An operation flushes with success if it answers that the machine waits, and only then. -/
theorem perform_flushes (u : Usage (Host.Journaled σ)) (operation : Operation) :
    (u.perform operation).session.host.flushes.count (.ok ()) =
      u.session.host.flushes.count (.ok ()) +
        (u.outcome? operation).toList.count .needInput := by
  -- Loads, inputs and fetches transfer nothing.
  have hlogged (event : Log.Event) : (Host.log u.session.host event).flushes =
      u.session.host.flushes :=
    Host.Journaled.flushes_eq_of_transfers_eq (Host.Journaled.transfers_log ..)
  have hloaded (image : List UInt8) : (u.session.load image).2.host.flushes =
      u.session.host.flushes := by
    unfold load
    split
    · exact hlogged _
    · rfl
  cases operation with
  | load image => exact congrArg (List.count _) (hloaded image)
  | loadFile file =>
    cases file with
    | ok image => exact congrArg (List.count _) (hloaded image)
    | error cause => rfl
  | send text => exact congrArg (List.count _) (hlogged _)
  | exec limit => exact (u.session.exec_prompts limit).count_flushes
  | execTraced limit => exact (execTraced_prompts .recorder limit u.session []).count_flushes
  | fetch =>
    have hfetched := Host.Journaled.flushes_eq_of_transfers_eq u.session.fetch_transfers
    simp only [perform]
    rcases hfetch : u.session.fetch with ⟨f | i, s⟩ <;> rw [hfetch] at hfetched <;>
      exact congrArg (List.count _) hfetched
  | execute k =>
    simp only [perform, outcome?]
    cases u.seen[k]? with
    | none => rfl
    | some i =>
      have hprompts := u.session.execute_prompts i
      simp only [Option.bind_some]
      rcases hexecute : u.session.execute i with ⟨f | outcome, s⟩ <;> rw [hexecute] at hprompts <;>
        exact hprompts.count_flushes

/-- Since the start of a history as many flushes have succeeded as answers have said that the
machine waits. -/
theorem replay_flushes (operations : List Operation) (u : Usage (Host.Journaled σ)) :
    (u.replay operations).session.host.flushes.count (.ok ()) =
      u.session.host.flushes.count (.ok ()) + (u.outcomes operations).count .needInput := by
  induction operations generalizing u with
  | nil => rfl
  | cons operation rest ih =>
    rw [replay_cons, ih, perform_flushes, outcomes, List.count_append, Nat.add_assoc]

end Usage

/-- Prompts are out before the machine waits. Take any history of a machine that has never been
loaded, on any host, and then a run under any tracer, and keep a journal beside the host, which
makes no difference.
* In the history as many flushes have succeeded as answers have said that the machine waits.
* If the run waits, then the last thing transferred is a flush, and it has succeeded.
* The run tries one flush at most. If this fails, then the run is over and a fault is recorded. -/
theorem flushed_before_waiting (host : σ) (operations : List Operation) (tracer : Tracer τ)
    (limit : Nat) (t : τ) :
    let plain := (Usage.start host).replay operations
    let noted := (Usage.start (Host.Journaled.start host)).replay operations
    let run := execTraced tracer limit noted.session t
    (noted.map Host.Journaled.host = plain ∧
        (run.1, run.2.1.map Host.Journaled.host, run.2.2) =
          execTraced tracer limit plain.session t) ∧
      noted.session.host.flushes.count (.ok ()) =
        ((Usage.start host).outcomes operations).count .needInput ∧
      (run.1 = .needInput → run.2.1.host.transfers.getLast? = some (.flush (.ok ()))) ∧
      ∃ flushes, run.2.1.host.flushes = noted.session.host.flushes ++ flushes ∧
        flushes.length ≤ 1 ∧
        ∀ reason, .error reason ∈ flushes →
          run.1 = .exit ∧ run.2.1.machine.fault ≠ none := by
  intro plain noted run
  have hplain : noted.map Host.Journaled.host = plain :=
    (Usage.replay_map Host.Journaled.hom operations (Usage.start (Host.Journaled.start host))).symm
  have hprompts : noted.session.Prompts run.1 run.2.1 :=
    execTraced_prompts tracer limit noted.session t
  obtain ⟨flushes, hflushes, hlength, -, hrefused⟩ := hprompts.exists_flushes
  refine ⟨⟨hplain, ?_⟩, ?_, ?_, flushes, hflushes, hlength, hrefused⟩
  · rw [← hplain]
    exact (execTraced_map Host.Journaled.hom tracer limit noted.session t).symm
  · -- The journal is empty at the start.
    have hcount := (Usage.start (Host.Journaled.start host)).replay_flushes operations
    rw [← Usage.outcomes_map Host.Journaled.hom] at hcount
    exact hcount.trans (Nat.zero_add _)
  · intro hwait
    rw [hwait] at hprompts
    exact hprompts.getLast?_transfers

/-- The program writes a prompt and reads a character, again and again. The host allows for one
flush. -/
theorem flushed_before_waiting_refused :
    let host : Host.Bounded := { flushLimit := some 1 }
    let operations : List Operation :=
      [.load [19, 0, 62, 0, 20, 0, 0, 128, 6, 0, 0, 0], .exec 9, .send "y"]
    let noted := (Usage.start (Host.Journaled.start host)).replay operations
    let run := execTraced .silent 9 noted.session ()
    noted.session.host.flushes.count (.ok ()) = 1 ∧
      run.2.1.host.flushes = [.ok (), .error "flush refused"] ∧
      run.1 = .exit ∧ run.2.1.machine.fault ≠ none := by
  intro host operations noted run
  obtain ⟨-, hcount, -, flushes, hflushes, -, hrefused⟩ :=
    flushed_before_waiting host operations .silent 9 ()
  have hbefore : noted.session.host.flushes = [.ok ()] := by decide +kernel
  have hafter : run.2.1.host.flushes = [.ok (), .error "flush refused"] := by decide +kernel
  have hrun : flushes = [.error "flush refused"] := by
    have hsame := hafter.symm.trans hflushes
    rw [hbefore] at hsame
    exact (List.cons.inj hsame).2.symm
  exact ⟨hcount.trans (by decide +kernel), hafter, hrefused "flush refused" (by simp [hrun])⟩

end Session

end WordVM
