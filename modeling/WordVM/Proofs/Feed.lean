import WordVM.Proofs.Input
import WordVM.Proofs.Waiting

/-!
# Input that arrives later

How a run that has come to its end or waits goes on when more input arrives, compared with the run
that had this input from the start.

A step that does not wait does the same with more input behind what is there
(`Machine.advance_feed`). A step that waits is where the two runs part: one parks the input
instruction and completes it later, the other completes it at once. `Machine.Leads` says that a
machine comes to the same end as another one, and `Machine.Ends.feed` that the run with all input
leads to where the interrupted run stands when its input arrives.

The machines that these runs end with agree on everything but the input that is left and the
instruction that waits for it (`Machine.AgreesWith`). `Session.EndsLike` carries all this over to
sessions on reliable hosts.
-/

namespace WordVM

namespace Machine

/-! ## Machines with more input -/

/-- Adds characters to the input. -/
def feed (m : Machine) (more : List Char) : Machine := { m with input := m.input ++ more }

theorem receive_eq_feed (m : Machine) (text : String) :
    m.receive text = m.feed (Input.normalize text.toList) := rfl

theorem feed_nil (m : Machine) : m.feed [] = m := by
  rw [feed, List.append_nil]

theorem feed_feed (m : Machine) (first second : List Char) :
    (m.feed first).feed second = m.feed (first ++ second) := by
  simp only [feed, List.append_assoc]

@[simp] theorem feed_stopped (m : Machine) (more : List Char) :
    (m.feed more).stopped = m.stopped := rfl

theorem store_feed (m : Machine) (dest : Operand) (w : Word) (more : List Char) :
    (m.feed more).store dest w = (m.store dest w).feed more := by
  cases dest <;> rfl

/-- A fetch does not look at the input. -/
theorem fetch_feed (m : Machine) (more : List Char) :
    (m.feed more).fetch = (m.fetch.1, m.fetch.2.feed more) := by
  -- Memory, registers and program counter are all that a peek depends on.
  have hpeek : (m.feed more).peek = m.peek := rfl
  unfold fetch
  rw [hpeek]
  cases m.peek with
  | pastCeiling => rfl
  | invalid word => rfl
  | instruction i fault? => cases fault? <;> rfl

/-- Only an input instruction looks at the input. -/
theorem perform_feed_of_ne {i : Instruction} (h : i.opcode ≠ .input) (m : Machine)
    (more : List Char) :
    (m.feed more).perform i = ((m.perform i).1.feed more, (m.perform i).2) := by
  have hmemory : (m.feed more).memory = m.memory := rfl
  have hstack : (m.feed more).stack = m.stack := rfl
  obtain ⟨pc, op, o⟩ := i
  cases op
  case input => exact absurd rfl h
  case pop =>
    simp only [perform, hstack]
    rcases o[0].register? with _ | _ <;> rcases m.stack.pop? with _ | _ <;> rfl
  case ret =>
    simp only [perform, hstack]
    rcases m.stack.pop? with _ | _ <;> rfl
  case readMem =>
    simp only [perform, hmemory, store_feed]
    split
    · cases m.memory.read o[1].byteOffset <;> rfl
    · rfl
  case writeMem =>
    simp only [perform, hmemory]
    cases m.memory.write o[0].byteOffset o[1].value <;> rfl
  -- Here the operands alone decide which of two things is done.
  case mod | jumpIf | jumpUnless =>
    simp only [perform, store_feed]
    grind [feed, jump]
  -- The others do one thing in every state.
  all_goals first | rfl | simp only [perform, store_feed]

/-- An instruction that does not have to wait only reads what is in front. -/
theorem perform_feed {m m' : Machine} {i : Instruction} {effect : Effect} (more : List Char)
    (h : m.perform i = (m', effect)) (hawait : effect ≠ .await) :
    (m.feed more).perform i = (m'.feed more, effect) := by
  by_cases hinput : i.opcode = .input
  · obtain ⟨pc, op, o⟩ := i
    obtain rfl : op = .input := hinput
    cases hinput : m.input with
    | nil =>
      have htake : m.takeInput? = none := by rw [takeInput?, hinput]
      simp only [perform, htake] at h
      exact absurd (congrArg Prod.snd h).symm hawait
    | cons c rest =>
      -- The first character is the same, and what is behind it moves up.
      have htake : m.takeInput? = some (Input.code c, { m with input := rest }) := by
        rw [takeInput?, hinput]
      have htake' : (m.feed more).takeInput? =
          some (Input.code c, { m with input := rest }.feed more) := by
        simp only [takeInput?, feed, hinput, List.cons_append]
      simp only [perform, htake] at h
      simp only [perform, htake', store_feed, ← (Prod.mk.inj h).1, ← (Prod.mk.inj h).2]
  · rw [perform_feed_of_ne hinput, h]

theorem conclude_feed {m m' : Machine} {effect : Effect} {outcome : Outcome} {out : List Char}
    (more : List Char) (h : conclude (m, effect) = (outcome, m', out)) :
    conclude (m.feed more, effect) = (outcome, m'.feed more, out) := by
  cases effect <;> cases h <;> rfl

theorem resume?_feed {m m' : Machine} (more : List Char) (h : m.resume? = some m') :
    (m.feed more).resume? = some (m'.feed more) := by
  obtain ⟨hpending, h'⟩ | ⟨_, -, -, h'⟩ | ⟨dest, c, rest, hpending, hinput, h'⟩ := m.resume?_cases
  all_goals rw [h'] at h
  · cases h
    rw [resume?]
    simp only [feed, hpending]
  · cases h
  · cases h
    rw [resume?, takeInput?]
    simp only [feed, hpending, hinput, List.cons_append, Option.map_some, store_input]
    cases dest <;> rfl

theorem runOne_feed {m m' : Machine} {outcome : Outcome} {out : List Char} (more : List Char)
    (h : m.runOne = (outcome, m', out)) (hwait : outcome ≠ .needInput) :
    (m.feed more).runOne = (outcome, m'.feed more, out) := by
  unfold runOne at h ⊢
  rw [fetch_feed]
  rcases hfetch : m.fetch with ⟨f | i, m₁⟩ <;> simp only [hfetch] at h ⊢
  · cases h
    rfl
  · rcases hperform : m₁.perform i with ⟨m₂, effect⟩
    have hawait : effect ≠ .await := by
      intro heffect
      subst heffect
      simp only [hperform] at h
      exact hwait (congrArg Prod.fst h).symm
    simp only [hperform] at h
    simp only [perform_feed more hperform hawait]
    exact conclude_feed more h

/-- A step that does not wait does the same with more input. -/
theorem advance_feed {m m' : Machine} {outcome : Outcome} {out : List Char} (more : List Char)
    (h : m.advance = (outcome, m', out)) (hwait : outcome ≠ .needInput) :
    (m.feed more).advance = (outcome, m'.feed more, out) := by
  unfold advance at h ⊢
  rw [feed_stopped]
  split at h
  · next hstopped =>
    cases h
    rw [if_pos hstopped]
  · next hstopped =>
    rw [if_neg hstopped]
    cases hresume : m.resume? with
    | none =>
      simp only [hresume] at h
      exact absurd (congrArg Prod.fst h).symm hwait
    | some m₁ =>
      simp only [hresume] at h
      simp only [resume?_feed more hresume]
      exact runOne_feed more h hwait

/-! ## Steps that end a run -/

theorem halted_of_perform {m m' : Machine} {i : Instruction} (h : m.perform i = (m', .exit)) :
    m'.halted = true := by
  obtain ⟨pc, op, o⟩ := i
  cases op
  all_goals
    simp only [perform] at h
    grind

@[simp] theorem record_stopped (m : Machine) (f : Fault) : (m.record f).stopped = true := by
  cases hfault : m.fault <;> simp [stopped, record, hfault]

theorem stopped_of_fetch {m m' : Machine} {f : Fault} (h : m.fetch = (.error f, m')) :
    m'.stopped = true := by
  obtain ⟨-, hfetch⟩ | ⟨word, -, -, -, hfetch⟩ | ⟨op, hpc, -, hfetch⟩ := m.fetch_cases
  all_goals rw [hfetch, Prod.mk.injEq] at h
  · cases h.1
  · rw [← h.2, record_stopped]
  · cases h.1

/-- A run that exits is over: it has halted, or a fault is recorded. -/
theorem stopped_of_advance {m m' : Machine} {out : List Char}
    (h : m.advance = (.exit, m', out)) : m'.stopped = true ∧ out = [] := by
  unfold advance at h
  split at h
  · next hstopped =>
    cases h
    exact ⟨hstopped, rfl⟩
  · cases hresume : m.resume? with
    | none => simp [hresume] at h
    | some m₁ =>
      simp only [hresume, runOne] at h
      rcases hfetch : m₁.fetch with ⟨f | i, m₂⟩ <;> simp only [hfetch] at h
      · cases h
        exact ⟨stopped_of_fetch hfetch, rfl⟩
      · rcases hperform : m₂.perform i with ⟨m₃, effect⟩
        rw [hperform] at h
        cases effect with
        | exit =>
          cases h
          exact ⟨by rw [stopped, halted_of_perform hperform, Bool.true_or], rfl⟩
        | fault f =>
          cases h
          exact ⟨record_stopped .., rfl⟩
        | next | emit | await => cases h

/-- A step that waits finds a parked input instruction without a character, or parks one. -/
theorem waits_of_advance {m m' : Machine} {out : List Char}
    (h : m.advance = (.needInput, m', out)) :
    m.stopped = false ∧ out = [] ∧ (m' = m ∨
      ∃ m₁ m₂ pc o, m.resume? = some m₁ ∧ m₁.fetch = (.ok ⟨pc, .input, o⟩, m₂) ∧ m₂.input = [] ∧
        m' = { m₂ with pending := some o[0] }) := by
  unfold advance at h
  split at h
  · cases h
  · next hstopped =>
    refine ⟨Bool.not_eq_true _ ▸ hstopped, ?_⟩
    cases hresume : m.resume? with
    | none =>
      simp only [hresume] at h
      cases h
      exact ⟨rfl, .inl rfl⟩
    | some m₁ =>
      simp only [hresume, runOne] at h
      rcases hfetch : m₁.fetch with ⟨f | i, m₂⟩ <;> simp only [hfetch] at h
      · cases h
      · rcases hperform : m₂.perform i with ⟨m₃, effect⟩
        rw [hperform] at h
        obtain ⟨hawait, -⟩ | ⟨pc, o, rfl, hinput, rfl, rfl⟩ := perform_cases hperform
        · cases effect with
          | await => exact absurd rfl hawait
          | next | exit | fault | emit => cases h
        · cases h
          exact ⟨rfl, .inr ⟨m₁, m₂, pc, o, rfl, hfetch, hinput, rfl⟩⟩

/-! ## Comparing ends -/

/-- Two machines differ at most in the input that is left and in what waits for it. -/
structure AgreesWith (m n : Machine) : Prop where
  memory_eq : m.memory = n.memory
  registers_eq : m.registers = n.registers
  stack_eq : m.stack = n.stack
  pc_eq : m.pc = n.pc
  halted_eq : m.halted = n.halted
  fault_eq : m.fault = n.fault

theorem AgreesWith.refl (m : Machine) : m.AgreesWith m := ⟨rfl, rfl, rfl, rfl, rfl, rfl⟩

theorem AgreesWith.symm {m n : Machine} (h : m.AgreesWith n) : n.AgreesWith m :=
  ⟨h.memory_eq.symm, h.registers_eq.symm, h.stack_eq.symm, h.pc_eq.symm, h.halted_eq.symm,
    h.fault_eq.symm⟩

theorem AgreesWith.trans {m n k : Machine} (h : m.AgreesWith n) (h' : n.AgreesWith k) :
    m.AgreesWith k :=
  ⟨h.memory_eq.trans h'.memory_eq, h.registers_eq.trans h'.registers_eq,
    h.stack_eq.trans h'.stack_eq, h.pc_eq.trans h'.pc_eq, h.halted_eq.trans h'.halted_eq,
    h.fault_eq.trans h'.fault_eq⟩

theorem Ends.of_stopped {m : Machine} (h : m.stopped = true) : Ends m .exit m [] :=
  .last (by rw [advance, if_pos h]) (by simp)

/-- A run of one machine writes some characters and then comes to the same end as a run of
another one, or has no end if that has none. -/
structure Leads (m : Machine) (out : List Char) (n : Machine) : Prop where
  forth : ∀ {outcome m' w}, Ends m outcome m' w →
    ∃ n' w', w = out ++ w' ∧ Ends n outcome n' w' ∧ n'.AgreesWith m'
  back : ∀ {outcome n' w}, Ends n outcome n' w →
    ∃ m', Ends m outcome m' (out ++ w) ∧ n'.AgreesWith m'

namespace Leads

variable {m n k : Machine} {out out' : List Char}

theorem trans (h : Leads m out n) (h' : Leads n out' k) : Leads m (out ++ out') k where
  forth hm := by
    obtain ⟨n', w, rfl, hn, hagree⟩ := h.forth hm
    obtain ⟨k', w', rfl, hk, hagree'⟩ := h'.forth hn
    exact ⟨k', w', (List.append_assoc ..).symm, hk, hagree'.trans hagree⟩
  back hk := by
    obtain ⟨n', hn, hagree⟩ := h'.back hk
    obtain ⟨m', hm, hagree'⟩ := h.back hn
    exact ⟨m', List.append_assoc .. ▸ hm, hagree.trans hagree'⟩

/-- A step leads to the next machine. -/
theorem of_advance (h : m.advance = (.next, n, out)) : Leads m out n where
  forth hm := by
    cases hm with
    | last step ended => exact absurd (congrArg Prod.fst (step.symm.trans h)) ended
    | next step rest =>
      cases step.symm.trans h
      exact ⟨_, _, rfl, rest, .refl _⟩
  back hn := ⟨_, .next h hn, .refl _⟩

/-- Machines that take the same step come to the same end. -/
theorem of_advance_eq (h : m.advance = n.advance) : Leads m [] n := by
  have hends {a b : Machine} (h : a.advance = b.advance) {outcome a' w}
      (ha : Ends a outcome a' w) : Ends b outcome a' w := by
    cases ha with
    | last step ended => exact .last (h ▸ step) ended
    | next step rest => exact .next (h ▸ step) rest
  exact ⟨fun hm => ⟨_, _, rfl, hends h hm, .refl _⟩, fun hn => ⟨_, hends h.symm hn, .refl _⟩⟩

/-- Runs that are over with machines that agree have come to the same end. -/
theorem of_stopped (hm : m.stopped = true) (hn : n.stopped = true) (h : n.AgreesWith m) :
    Leads m [] n where
  forth hm' := by
    obtain ⟨rfl, rfl, rfl⟩ := (Ends.of_stopped hm).unique hm'
    exact ⟨n, [], rfl, .of_stopped hn, h⟩
  back hn' := by
    obtain ⟨rfl, rfl, rfl⟩ := (Ends.of_stopped hn).unique hn'
    exact ⟨m, .of_stopped hm, h⟩

end Leads

/-! ## Interrupted runs -/

/-- An input instruction with a bad operand word keeps nothing of what it reads. -/
theorem store_of_fetch {m m' : Machine} {pc : Nat} {o : Vector Operand 1}
    (h : m.fetch = (.ok ⟨pc, .input, o⟩, m')) (hfault : m.fault = none) (hbad : m'.fault ≠ none)
    (n : Machine) (w : Word) : n.store o[0] w = n := by
  obtain ⟨hpc, word, -, hread, hdecode, rfl⟩ := fetch_of_arity_eq_one h rfl
  -- The fault recorded can only be the one of the operand word.
  have hword : 32776 ≤ word.toNat := by
    by_contra hgood
    apply hbad
    simp only [hfault, Option.none_or, Operand.wordFault?, if_neg hgood]
  have hliteral :=
    Instruction.getElem_decode_of_bad (k := 0) m.registers hpc .input (by decide) hread hword
  change Instruction.decode m.memory m.registers m.pc hpc .input = ⟨pc, .input, o⟩ at hdecode
  cases hdecode
  exact congrArg (n.store · w) hliteral

/-- With a character at hand, an input instruction reads it at once. -/
theorem advance_of_input {m m₁ m₂ : Machine} {pc : Nat} {o : Vector Operand 1} {c : Char}
    {rest : List Char} (hstopped : m.stopped = false) (hresume : m.resume? = some m₁)
    (hfetch : m₁.fetch = (.ok ⟨pc, .input, o⟩, m₂)) (hinput : m₂.input = c :: rest) :
    m.advance = (.next, { m₂ with input := rest }.store o[0] (Input.code c), []) := by
  have htake : m₂.takeInput? = some (Input.code c, { m₂ with input := rest }) := by
    rw [takeInput?, hinput]
  simp only [advance, hstopped, Bool.false_eq_true, if_false, hresume, runOne, hfetch, perform,
    htake, conclude]
  rfl

/-- A parked input instruction reads the character first, and then the run goes on as if none had
been parked. -/
theorem advance_of_parked {m : Machine} {dest : Operand} {c : Char} {rest : List Char}
    (hstopped : m.stopped = false) (hpending : m.pending = none) (hinput : m.input = []) :
    ({ m with pending := some dest }.feed (c :: rest)).advance =
      ({ m with input := rest }.store dest (Input.code c)).advance := by
  have hresume : ({ m with pending := some dest }.feed (c :: rest)).resume? =
      some ({ m with input := rest }.store dest (Input.code c)) := by
    simp only [resume?, takeInput?, feed, hinput, List.nil_append, Option.map_some, ← hpending]
  have hresume' : ({ m with input := rest }.store dest (Input.code c)).resume? =
      some ({ m with input := rest }.store dest (Input.code c)) := by
    simp only [resume?, store_pending, hpending]
  have hstopped' : ({ m with input := rest }.store dest (Input.code c)).stopped = false := by
    rw [stopped, store_halted, store_fault]
    exact hstopped
  have hparked : ({ m with pending := some dest }.feed (c :: rest)).stopped = false := hstopped
  simp only [advance, hparked, hstopped', Bool.false_eq_true, if_false, hresume, hresume']

/-- A step that waits makes no difference to a run that goes on with more input. -/
theorem leads_of_needInput {m m' : Machine} {out more : List Char}
    (h : m.advance = (.needInput, m', out)) (hmore : more ≠ []) :
    Leads (m.feed more) out (m'.feed more) := by
  obtain ⟨hstopped, rfl, rfl | ⟨m₁, m₂, pc, o, hresume, hfetch, hinput, rfl⟩⟩ := waits_of_advance h
  · exact .of_advance_eq rfl
  · obtain ⟨c, rest, rfl⟩ := List.exists_cons_of_ne_nil hmore
    have hfetch' : (m₁.feed (c :: rest)).fetch =
        (.ok ⟨pc, .input, o⟩, m₂.feed (c :: rest)) := by
      rw [fetch_feed, hfetch]
    have hinput' : (m₂.feed (c :: rest)).input = c :: rest := by
      rw [feed, hinput, List.nil_append]
    have hstep := Leads.of_advance <| advance_of_input
      ((feed_stopped ..).trans hstopped) (resume?_feed (c :: rest) hresume) hfetch' hinput'
    apply hstep.trans
    -- The other run finds the instruction parked, and what it does depends on the operand word.
    obtain ⟨hpending₁, hhalted₁, hfault₁⟩ := resume?_eq_some hresume
    obtain ⟨hhalted, hnone⟩ := stopped_eq_false_iff.mp hstopped
    have hpending : m₂.pending = none := by
      rw [← hpending₁, ← m₁.fetch_pending, hfetch]
    by_cases hfault : m₂.fault = none
    · have hhalted₂ : m₂.halted = false := by
        rw [← hhalted, ← hhalted₁, ← m₁.fetch_halted, hfetch]
      have hrunning : m₂.stopped = false := stopped_eq_false_iff.mpr ⟨hhalted₂, hfault⟩
      exact .of_advance_eq (advance_of_parked hrunning hpending hinput).symm
    · -- Both runs are over, and only one of them has taken the character.
      have hover : m₂.stopped = true := by
        rw [stopped, Option.isSome_iff_ne_none.mpr hfault, Bool.or_true]
      rw [store_of_fetch hfetch (hfault₁.trans hnone) hfault]
      exact .of_stopped hover hover ⟨rfl, rfl, rfl, rfl, rfl, rfl⟩

/-- The run with all input from the start leads to where the interrupted run stands when the rest
of the input arrives. -/
theorem Ends.feed {m m' : Machine} {outcome : Outcome} {out more : List Char}
    (h : Ends m outcome m' out) (hmore : outcome = .needInput → more ≠ []) :
    Leads (m.feed more) out (m'.feed more) := by
  induction h with
  | @last m m' outcome out step ended =>
    cases outcome with
    | next => exact absurd rfl ended
    | needInput => exact leads_of_needInput step (hmore rfl)
    | exit =>
      -- A run that is over stays over, whatever arrives.
      obtain ⟨hstopped, rfl⟩ := stopped_of_advance step
      have hover : (m'.feed more).advance = (.exit, m'.feed more, []) := if_pos hstopped
      exact .of_advance_eq ((advance_feed more step (by simp)).trans hover.symm)
  | next step _ ih => exact (Leads.of_advance (advance_feed more step (by simp))).trans (ih hmore)

/-- A run that comes to an end with more input comes to an end without. -/
theorem Ends.of_feed {m n : Machine} {outcome : Outcome} {out more : List Char}
    (h : Ends (m.feed more) outcome n out) : ∃ outcome' m' out', Ends m outcome' m' out' := by
  generalize hfed : m.feed more = fed at h
  induction h generalizing m with
  | last step ended =>
    rcases hstep : m.advance with ⟨outcome', m', out'⟩
    -- A step that goes on would do so with more input too.
    refine ⟨outcome', m', out', .last hstep ?_⟩
    intro hnext
    subst hnext
    rw [← hfed, advance_feed more hstep (by simp)] at step
    exact ended (congrArg Prod.fst step).symm
  | next step rest ih =>
    rcases hstep : m.advance with ⟨outcome', m', out'⟩
    by_cases hnext : outcome' = .next
    · subst hnext hfed
      cases step.symm.trans (advance_feed more hstep (by simp))
      obtain ⟨outcome, m'', out'', hends⟩ := ih rfl
      exact ⟨outcome, m'', _, .next hstep hends⟩
    · exact ⟨outcome', m', out', .last hstep hnext⟩

theorem Ends.stopped {m m' : Machine} {out : List Char} (h : Ends m .exit m' out) :
    m'.stopped = true := by
  generalize houtcome : Outcome.exit = outcome at h
  induction h with
  | last step _ =>
    subst houtcome
    exact (stopped_of_advance step).1
  | next _ _ ih => exact ih houtcome

end Machine

namespace Session

variable {σ : Type} {kept : σ → List UInt8}

/-! ## Sessions that are given input -/

/-- A session has come, apart from the input, to what a machine comes to by itself, and its host
has kept the characters written beside what an earlier host had kept. -/
def EndsLike (kept : σ → List UInt8) (host : σ) (m : Machine) (outcome : Outcome)
    (s : Session σ) : Prop :=
  ∃ m' out, Machine.Ends m outcome m' out ∧ s.machine.AgreesWith m' ∧
    kept s.host = kept host ++ Input.encode out

/-- One machine comes to one end only. -/
theorem EndsLike.unique {host host' : σ} {m : Machine} {outcome outcome' : Outcome}
    {s s' : Session σ} (h : EndsLike kept host m outcome s)
    (h' : EndsLike kept host' m outcome' s') (hhost : kept host = kept host') :
    outcome = outcome' ∧ s.machine.AgreesWith s'.machine ∧ kept s.host = kept s'.host := by
  obtain ⟨m₁, out, hends, hagree, hkept⟩ := h
  obtain ⟨m₂, out', hends', hagree', hkept'⟩ := h'
  obtain ⟨rfl, rfl, rfl⟩ := hends'.unique hends
  exact ⟨rfl, hagree.trans hagree'.symm, by rw [hkept, hkept', hhost]⟩

/-- What comes of a machine comes of every machine that leads to it. -/
theorem EndsLike.of_leads {host host' : σ} {m n : Machine} {out : List Char} {outcome : Outcome}
    {s : Session σ} (h : EndsLike kept host' n outcome s) (hleads : m.Leads out n)
    (hkept : kept host' = kept host ++ Input.encode out) : EndsLike kept host m outcome s := by
  obtain ⟨n', out', hends, hagree, hkept'⟩ := h
  obtain ⟨m', hends', hagree'⟩ := hleads.back hends
  refine ⟨m', out ++ out', hends', hagree.trans hagree', ?_⟩
  rw [hkept', hkept, Input.encode, Input.encode, Input.encode, List.flatMap_append,
    List.append_assoc]

variable [Host σ]

/-- A run that is over has come to the end of its machine's run. -/
theorem ends_of_exec {s s' : Session σ} {limit : Nat} {outcome : Outcome}
    (h : Host.Reliable kept s.host) (hexec : s.exec limit = (outcome, s'))
    (hover : outcome ≠ .next) :
    ∃ out, Machine.Ends s.machine outcome s'.machine out ∧
      kept s'.host = kept s.host ++ Input.encode out ∧ Host.Reliable kept s'.host := by
  obtain ⟨houtcome, hmachine, hkept, hreliable⟩ := exec_mirrors h limit
  rw [hexec] at houtcome hmachine hkept hreliable
  refine ⟨_, Machine.ends_iff_exec.mpr ⟨limit, ?_, hover⟩, hkept, hreliable⟩
  exact Prod.ext houtcome.symm (Prod.ext hmachine.symm rfl)

/-- If a machine's run has an end, every session with this machine comes to it. -/
theorem exec_of_ends {s : Session σ} {outcome : Outcome} {m' : Machine} {out : List Char}
    (h : Host.Reliable kept s.host) (hends : s.machine.Ends outcome m' out) :
    ∃ limit host, ∀ k, s.exec (limit + k) = (outcome, ⟨m', host⟩) := by
  obtain ⟨limit, hexec, hover⟩ := Machine.ends_iff_exec.mp hends
  obtain ⟨houtcome, hmachine, -, -⟩ := exec_mirrors h limit
  rw [hexec] at houtcome hmachine
  refine ⟨limit, (s.exec limit).2.host, fun k => ?_⟩
  rw [exec_add (by rw [houtcome]; exact hover)]
  refine Prod.ext houtcome ?_
  dsimp only at hmachine
  rw [← hmachine]

theorem exec_ends_iff {s : Session σ} (h : Host.Reliable kept s.host) :
    (∃ limit, (s.exec limit).1 ≠ .next) ↔ ∃ outcome m' out, s.machine.Ends outcome m' out := by
  constructor
  · intro hexec
    obtain ⟨limit, hover⟩ := hexec
    obtain ⟨out, hends, -, -⟩ := ends_of_exec h rfl hover
    exact ⟨_, _, out, hends⟩
  · intro hmachine
    obtain ⟨outcome, m', out, hends⟩ := hmachine
    obtain ⟨limit, host, hexec⟩ := exec_of_ends h hends
    refine ⟨limit, ?_⟩
    rw [← Nat.add_zero limit, hexec 0]
    exact hends.ne_next

/-- A run on text sent beforehand ends like the machine that has the text. -/
theorem exec_sendInput_endsLike {s : Session σ} (h : Host.Reliable kept s.host) (text : String)
    {limit : Nat} (hover : ((s.sendInput text).exec limit).1 ≠ .next) :
    EndsLike kept s.host (s.machine.feed (Input.normalize text.toList))
      ((s.sendInput text).exec limit).1 ((s.sendInput text).exec limit).2 := by
  obtain ⟨out, hends, hkept, -⟩ := ends_of_exec (s := s.sendInput text) (h.log _) rfl hover
  exact ⟨_, out, hends, .refl _, hkept.trans (by rw [sendInput, h.kept_log])⟩

end Session

end WordVM
