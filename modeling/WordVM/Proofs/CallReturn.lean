import WordVM.Proofs.Execution

/-!
# Calls and returns

A step pushes one word on the stack, or pops one, or leaves the stack alone (`Stack.Change`). So
what lies at the bottom of the stack stays there until the stack becomes less deep
(`Session.replay_bottom`). In particular a call can count on finding its return address again: a
return at the depth of the call goes back to behind the call and restores its stack
(`Session.call_return`).
-/

namespace WordVM

namespace Stack

/-- One stack becomes another one by at most one push or pop. -/
inductive Change (s : Stack) : Stack → Prop
  | same : Change s s
  | push (w : Word) : Change s (s.push w)
  | pop {w : Word} {s' : Stack} (h : s.pop? = some (w, s')) : Change s s'

theorem eq_push_of_pop? {s s' : Stack} {w : Word} (h : s.pop? = some (w, s')) : s = s'.push w := by
  obtain ⟨_ | ⟨_, rest⟩⟩ := s
  · cases h
  · cases h
    rfl

theorem eq_of_toList {s s' : Stack} (h : s.toList = s'.toList) : s = s' := by
  obtain ⟨words⟩ := s
  obtain ⟨words'⟩ := s'
  exact congrArg mk (List.reverse_inj.mp h)

/-- The words at the bottom stay the same as long as the stack is not less deep. -/
theorem Change.bottom {s s' : Stack} {bottom : List Word} (h : Change s s')
    (hbottom : bottom <+: s.toList) (hdepth : bottom.length ≤ s'.depth) : bottom <+: s'.toList := by
  cases h with
  | same => exact hbottom
  | push w => exact hbottom.trans (by simp)
  | pop hpop =>
    -- Both are at the bottom of the deeper stack, so the shorter of them begins the longer.
    rw [eq_push_of_pop? hpop, toList_push] at hbottom
    exact List.prefix_of_prefix_length_le hbottom (List.prefix_append ..) (by simpa using hdepth)

end Stack

namespace Machine

/-! ## The stack in a step -/

@[simp] theorem store_stack (m : Machine) (dest : Operand) (w : Word) :
    (m.store dest w).stack = m.stack := by
  cases dest <;> rfl

@[simp] theorem jump_stack (m : Machine) (target : Operand) : (m.jump target).stack = m.stack := rfl

/-- An instruction pushes or pops one word at most. -/
theorem perform_stack (m : Machine) (i : Instruction) : m.stack.Change (m.perform i).1.stack := by
  obtain ⟨pc, op, o⟩ := i
  cases op
  case push => exact .push _
  case call => exact .push _
  case pop =>
    simp only [perform]
    rcases o[0].register? with _ | r
    · exact .same
    rcases hpop : m.stack.pop? with _ | ⟨w, stack⟩
    · exact .same
    · exact .pop hpop
  case ret =>
    simp only [perform]
    rcases hpop : m.stack.pop? with _ | ⟨w, stack⟩
    · exact .same
    · exact .pop hpop
  case input =>
    simp only [perform]
    rcases htake : m.takeInput? with _ | ⟨w, m'⟩
    · exact .same
    · obtain ⟨_, _, -, -, rfl⟩ := takeInput?_eq_some htake
      rw [store_stack]
      exact .same
  -- The other instructions do not know of the stack.
  all_goals
    have hsame : (m.perform ⟨pc, _, o⟩).1.stack = m.stack := by
      grind [perform, store_stack, jump_stack]
    rw [hsame]
    exact .same

/-- Only instructions change the stack. -/
theorem keptBetween_stack (stack : Stack) : KeptBetween fun m => m.stack = stack where
  receive _ h := h
  record _ h := h
  resume {m m'} hresume h := by
    obtain ⟨-, h'⟩ | ⟨_, -, -, h'⟩ | ⟨_, _, _, -, -, h'⟩ := m.resume?_cases <;>
      rw [h'] at hresume <;> cases hresume
    · exact h
    · rwa [store_stack]
  fetch {m} h := by
    obtain ⟨-, h'⟩ | ⟨_, -, -, -, h'⟩ | ⟨_, _, -, h'⟩ := m.fetch_cases <;> rw [h'] <;> exact h

theorem perform_of_call {i : Instruction} (hop : i.opcode = .call) (m : Machine) :
    m.perform i = ({ m with
      stack := m.stack.push (UInt16.ofNat (m.pc / 2))
      pc := Word.byteOffset (i.valueAt 0) }, .next) := by
  obtain ⟨pc, op, o⟩ := i
  obtain rfl : op = .call := hop
  rw [Instruction.valueAt_eq (by decide)]
  rfl

theorem perform_of_ret {m : Machine} {i : Instruction} {w : Word} {stack : Stack}
    (hop : i.opcode = .ret) (hstack : m.stack = stack.push w) :
    m.perform i = ({ m with stack, pc := Word.byteOffset w }, .next) := by
  obtain ⟨pc, op, o⟩ := i
  obtain rfl : op = .ret := hop
  simp only [perform, hstack, Stack.pop?_push]

/-- Where a machine is placed, halving the program counter for the stack loses nothing. -/
theorem Placed.byteOffset_half {m : Machine} (h : m.Placed) :
    Word.byteOffset (UInt16.ofNat (m.pc / 2)) = m.pc := by
  have heven := h.even
  have hle := h.le
  rw [Word.byteOffset, UInt16.toNat_ofNat_of_lt' (by show m.pc / 2 < 65536; omega)]
  omega

end Machine

namespace Session

variable {σ : Type} [Host σ]

theorem advance_stack (s : Session σ) : s.machine.stack.Change s.advance.2.machine.stack := by
  have hkept := Machine.keptBetween_stack s.machine.stack
  obtain ⟨-, hsame | ⟨f, hsame⟩ | ⟨m, hresume, hsame⟩⟩ | ⟨e, he, hsame⟩ := s.advance_cases
  · rw [hsame]
    exact .same
  · rw [hsame, hkept.record f rfl]
    exact .same
  · rw [hsame, hkept.fetch (hkept.resume hresume rfl)]
    exact .same
  · have hstack : s.advance.2.machine.stack = e.result.1.stack := by
      obtain h | ⟨f, h⟩ := hsame <;> rw [h]
      rfl
    rw [hstack, ← hkept.execution rfl he]
    exact e.machine.perform_stack e.instruction

/-- The words at the bottom of the stack stay the same in a history, if the stack never becomes less
deep than them. -/
theorem replay_bottom {s : Session σ} {bottom : List Word} {actions : List Action}
    (h : bottom <+: s.machine.stack.toList)
    (hdepth : ∀ soFar, soFar <+: actions →
      bottom.length ≤ (s.replay soFar).2.machine.stack.depth) :
    bottom <+: (s.replay actions).2.machine.stack.toList := by
  induction actions generalizing s with
  | nil => exact h
  | cons action rest ih =>
    have hrest (soFar : List Action) (hsoFar : soFar <+: rest) :=
      hdepth (action :: soFar) (List.prefix_cons_inj action |>.mpr hsoFar)
    cases action with
    | send text => exact ih (s := s.sendInput text) h hrest
    | step =>
      -- The stack is deep enough right after the step, before anything of the rest.
      have hfirst : bottom.length ≤ s.advance.2.machine.stack.depth := by
        simpa using hrest [] List.nil_prefix
      simp only [replay_step] at hrest ⊢
      exact ih (s.advance_stack.bottom h hfirst) hrest

/-- A return to a word on top of the stack. -/
theorem advance_of_ret {s : Session σ} {e : Execution} {w : Word} {stack : Stack}
    (he : s.machine.execution? = some e) (hop : e.instruction.opcode = .ret)
    (hstack : s.machine.stack = stack.push w) :
    s.advance.2.machine.pc = Word.byteOffset w ∧ s.advance.2.machine.stack = stack := by
  have hresult : e.result = ({ e.machine with stack, pc := Word.byteOffset w }, .next) :=
    Machine.perform_of_ret hop ((Machine.keptBetween_stack _).execution hstack he)
  obtain ⟨hnone, -⟩ | ⟨e', he', hsame⟩ := s.advance_cases
  · cases hnone.symm.trans he
  · cases he.symm.trans he'
    rw [hresult] at hsame
    obtain h | ⟨f, h⟩ := hsame <;> rw [h] <;> exact ⟨rfl, rfl⟩

/-- What happens above a word that has been pushed. -/
theorem replay_above {s : Session σ} {stack : Stack} {w : Word}
    (hpushed : s.machine.stack = stack.push w) {actions : List Action}
    (hdepth : ∀ soFar, soFar <+: actions →
      stack.depth + 1 ≤ (s.replay soFar).2.machine.stack.depth) :
    let now := (s.replay actions).2
    now.machine.stack.toList.take (stack.depth + 1) = stack.toList ++ [w] ∧
      ∀ e, now.machine.execution? = some e → e.instruction.opcode = .ret →
        now.machine.stack.depth = stack.depth + 1 →
        now.advance.2.machine.pc = Word.byteOffset w ∧ now.advance.2.machine.stack = stack := by
  intro now
  have hlength : (stack.push w).toList.length = stack.depth + 1 := by simp
  have hbottom : (stack.push w).toList <+: now.machine.stack.toList :=
    replay_bottom (hpushed ▸ List.prefix_rfl) fun soFar hsoFar => by
      rw [hlength]
      exact hdepth soFar hsoFar
  refine ⟨?_, fun e he hop hnow => ?_⟩
  · rw [← hlength, ← List.prefix_iff_eq_take.mp hbottom, Stack.toList_push]
  · -- Nothing lies above the word that was pushed.
    have hsame : now.machine.stack = stack.push w :=
      Stack.eq_of_toList (hbottom.eq_of_length (by rw [hlength, Stack.length_toList, hnow])).symm
    exact advance_of_ret he hop hsame

/-- A call pushes the address of what follows it. -/
theorem execute_of_call {s : Session σ} {i : Instruction} (h : s.machine.Placed)
    (hop : i.opcode = .call) :
    ∃ w called, s.execute i = (.ok .next, called) ∧ Word.byteOffset w = s.machine.pc ∧
      called.machine.stack = s.machine.stack.push w := by
  have hexecute : s.execute i = (.ok .next, ⟨{ s.machine with
      stack := s.machine.stack.push (UInt16.ofNat (s.machine.pc / 2))
      pc := Word.byteOffset (i.valueAt 0) }, s.host⟩) := by
    simp only [execute, Machine.perform_of_call hop]
  exact ⟨_, _, hexecute, h.byteOffset_half, rfl⟩

/-- A call, executed right after it has been fetched by a user or within a run, in any state that a
session comes to. As long as the stack stays deeper than before the call, the return address lies on
the stack of the call, which stays as it was. A return at that point goes back to the instruction
after the call and restores its stack. -/
theorem call_return {host : σ} {operations : List Operation} {s point fetched : Session σ}
    {i : Instruction} (hreached : ((Usage.start host).replay operations).session = s)
    (hpoint : point = s ∨ s.fetchPoint? = some point) (hfetch : point.fetch = (.ok i, fetched))
    (hop : i.opcode = .call) :
    let called := (fetched.execute i).2
    (s.fetchPoint? = some point → s.advance = (.next, called)) ∧
      ∃ w, Word.byteOffset w = s.machine.pc + 4 ∧ ∀ actions,
        (∀ soFar, soFar <+: actions →
          s.machine.stack.depth + 1 ≤ (called.replay soFar).2.machine.stack.depth) →
        let now := (called.replay actions).2
        now.machine.stack.toList.take (s.machine.stack.depth + 1) =
            s.machine.stack.toList ++ [w] ∧
          ∀ e, now.machine.execution? = some e → e.instruction.opcode = .ret →
            now.machine.stack.depth = s.machine.stack.depth + 1 →
            now.advance.2.machine.pc = s.machine.pc + 4 ∧
              now.advance.2.machine.stack = s.machine.stack := by
  have hplaced : s.machine.Placed := by
    rw [← hreached]
    exact Usage.replay_placed (.boot _) operations
  -- The call is fetched where the session is, with the stack of the session.
  obtain ⟨hpc, hstack⟩ : point.machine.pc = s.machine.pc ∧
      point.machine.stack = s.machine.stack := by
    rcases hpoint with rfl | hpoint
    · exact ⟨rfl, rfl⟩
    · obtain ⟨-, hresume, -⟩ := fetchPoint?_eq_some_iff.mp hpoint
      exact ⟨Machine.resume?_pc hresume, (Machine.keptBetween_stack _).resume hresume rfl⟩
  have hplain := machine_fetch_eq hfetch
  obtain ⟨-, _, -, -, -, hfetched⟩ :=
    Machine.fetch_of_arity_eq_one hplain (by rw [hop]; rfl)
  have hplacedAfter := (hplaced.of_pc_eq hpc).fetch
  rw [hplain] at hplacedAfter
  obtain ⟨w, called, hexecute, hw, hpushed⟩ := execute_of_call hplacedAfter hop
  have hw : Word.byteOffset w = s.machine.pc + 4 := by rw [hw, hfetched, ← hpc]
  have hpushed : called.machine.stack = s.machine.stack.push w := by
    rw [hpushed, hfetched, ← hstack]
  rw [hexecute, ← hw]
  refine ⟨fun hstep => ?_, w, rfl, fun actions hdepth => replay_above hpushed hdepth⟩
  obtain ⟨hnone, -⟩ | ⟨point', hpoint', hadvance⟩ := s.fetchPoint?_cases
  · cases hnone.symm.trans hstep
  · cases hstep.symm.trans hpoint'
    rw [hadvance, runOne, hfetch]
    simp only [hexecute]

/-- The program calls a function that pushes a word, takes it back and returns. -/
theorem call_return_pushPop :
    let s := ((Usage.start ({} : Host.Bounded)).replay
      [.load [17, 0, 3, 0, 0, 0, 2, 0, 7, 0, 3, 0, 0, 128, 18, 0]]).session
    let now := (s.advance.2.replay [.step, .step]).2
    s.fetchPoint? = some s ∧ s.fetch.1.map Instruction.opcode = .ok .call ∧
      now.machine.execution?.map (·.instruction.opcode) = some .ret ∧
      now.advance.2.machine.pc = 4 ∧ now.advance.2.machine.stack = .empty := by
  intro s now
  have hpoint : s.fetchPoint? = some s :=
    fetchPoint?_eq_some_iff.mpr ⟨by decide +kernel, rfl, rfl⟩
  have hopcode : s.fetch.1.map Instruction.opcode = .ok .call := by decide +kernel
  have hreturn : now.machine.execution?.map (·.instruction.opcode) = some .ret := by
    decide +kernel
  obtain ⟨i, hi⟩ : ∃ i, s.fetch.1 = .ok i := ⟨_, rfl⟩
  have hcall : i.opcode = .call := by
    rw [hi] at hopcode
    exact Except.ok.inj hopcode
  obtain ⟨e, he, hret⟩ := Option.map_eq_some_iff.mp hreturn
  have hfetch : s.fetch = (.ok i, s.fetch.2) := Prod.ext hi rfl
  obtain ⟨hstep, w, -, hrun⟩ := call_return (s := s) rfl (.inr hpoint) hfetch hcall
  rw [← show s.advance.2 = _ from congrArg Prod.snd (hstep hpoint)] at hrun
  obtain ⟨-, hbracket⟩ := hrun [.step, .step] fun soFar hsoFar => by
    simp only [List.prefix_cons_iff, List.prefix_nil] at hsoFar
    obtain rfl | ⟨_, rfl, rfl | ⟨_, rfl, rfl⟩⟩ := hsoFar <;> decide +kernel
  exact ⟨hpoint, hopcode, hreturn, hbracket e he hret (by decide +kernel)⟩

end Session

end WordVM
