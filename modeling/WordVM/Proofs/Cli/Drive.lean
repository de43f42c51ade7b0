import WordVM.Cli.Run
import WordVM.Proofs.Delivery

/-!
# Driving a program on standard input

`Cli.drive` gives the lines of standard input to the machine one by one, each when the machine
waits. `Cli.drive_eq_sendInput` compares it with a single run that has all of standard input from
the start: both come to an end for the same texts, with sessions that agree on everything but the
input that is left and the instruction that waits, and `verdict` says how the result of the one
follows from the outcome of the other.

A run that exits before its input is used up leaves lines behind that the driver never reads, so
the single run has more input left; `Session.endsLike_of_exit` is about this case.
-/

namespace WordVM

namespace Session

variable {σ : Type} {kept : σ → List UInt8}

/-- A run that exits would have done the same with more input. -/
theorem endsLike_of_exit {host : σ} {m : Machine} {s : Session σ} {out : List Char}
    (h : m.Ends .exit s.machine out) (hkept : kept s.host = kept host ++ Input.encode out)
    (more : List Char) : EndsLike kept host (m.feed more) .exit s := by
  have hover : (s.machine.feed more).Ends .exit (s.machine.feed more) [] := .of_stopped h.stopped
  have hsame : EndsLike kept s.host (s.machine.feed more) .exit s :=
    ⟨_, [], hover, ⟨rfl, rfl, rfl, rfl, rfl, rfl⟩, (List.append_nil _).symm⟩
  exact hsame.of_leads (h.feed (by simp)) hkept

end Session

namespace Cli

open Session

variable {σ τ : Type} {kept : σ → List UInt8}

/-! ## Results -/

/-- The result of the driver for the outcome of its last run. -/
def verdict (outcome : Outcome) (s : Session σ) : Except RunError Unit :=
  match turn outcome s with
  | .finished result => result
  | .running | .waiting => .error .inputClosed

/-- A run that exits without a fault has halted, and one with a fault fails with it. -/
theorem verdict_exit {host : σ} {m : Machine} {s : Session σ}
    (h : EndsLike kept host m .exit s) :
    (verdict .exit s = .ok () ↔ s.machine.fault = none) ∧
      (s.machine.fault = none → s.machine.halted = true) ∧
      ∀ f, s.machine.fault = some f → verdict .exit s = .error (.fault f) := by
  obtain ⟨m', out, hends, hagree, -⟩ := h
  have hstopped : s.machine.stopped = true := by
    rw [Machine.stopped, hagree.halted_eq, hagree.fault_eq]
    exact hends.stopped
  simp only [verdict, turn]
  cases hfault : s.machine.fault with
  | none => simpa [Machine.stopped, hfault] using hstopped
  | some f => simp

/-! ## Lines -/

/-- The lines of a text. -/
def textLines (text : String) : List String := (Input.textLines text.toList).map String.ofList

theorem textLines_ne_empty (text : String) : ∀ line ∈ textLines text, line ≠ "" := by
  intro line hline
  obtain ⟨cs, hcs, rfl⟩ := List.mem_map.mp hline
  intro hempty
  refine Input.textLines_ne_nil text.toList cs hcs ?_
  rw [← String.toList_ofList (l := cs), hempty]
  rfl

theorem toList_comp_ofList : String.toList ∘ String.ofList = id := by
  funext cs
  exact String.toList_ofList

theorem join_textLines (text : String) : String.join (textLines text) = text := by
  rw [← String.toList_inj, String.toList_join, List.flatMap_def, textLines, List.map_map,
    toList_comp_ofList, List.map_id, Input.flatten_textLines]

theorem textLines_keepLineEndings (text : String) : KeepsLineEndings (textLines text) := by
  refine (List.isChain_map _).mpr ?_
  simp only [String.toList_ofList]
  exact Input.textLines_uncut text.toList

/-- The lines that the driver cuts from the bytes of a text are the lines of the text. -/
theorem lines_toUTF8 (text : String) :
    Input.lines text.toUTF8.data.toList =
      (textLines text).map fun line => Input.encode line.toList := by
  rw [Input.toUTF8_toList, Input.lines_encode, textLines, List.map_map]
  simp only [Function.comp_def, String.toList_ofList]

/-! ## Driving -/

variable [Host σ]

theorem feed_encode (line : String) (s : Session σ) :
    feed (Input.encode line.toList) s = .ok (s.sendInput line) := by
  rw [feed, Input.fromUTF8?_encode, String.ofList_toList]

theorem drive_of_next {tracer : Tracer τ} {limit : Nat} {s s' : Session σ} {t t' : τ}
    (h : s.execTraced tracer limit t = (.next, s', t')) (lines : List (List UInt8)) :
    drive tracer limit lines s t = (none, s', t') := by
  rw [drive.eq_def]
  simp only [h, turn]

theorem drive_of_exit {tracer : Tracer τ} {limit : Nat} {s s' : Session σ} {t t' : τ}
    (h : s.execTraced tracer limit t = (.exit, s', t')) (lines : List (List UInt8)) :
    drive tracer limit lines s t = (some (verdict .exit s'), s', t') := by
  rw [drive.eq_def]
  simp only [h, verdict, turn]
  cases s'.machine.fault <;> rfl

theorem drive_of_needInput_nil {tracer : Tracer τ} {limit : Nat} {s s' : Session σ} {t t' : τ}
    (h : s.execTraced tracer limit t = (.needInput, s', t')) :
    drive tracer limit [] s t = (some (verdict .needInput s'), s', t') := by
  rw [drive, h]
  rfl

theorem drive_of_needInput_cons {tracer : Tracer τ} {limit : Nat} {s s' : Session σ} {t t' : τ}
    (h : s.execTraced tracer limit t = (.needInput, s', t')) (line : String)
    (rest : List (List UInt8)) :
    drive tracer limit (Input.encode line.toList :: rest) s t =
      drive tracer limit rest (s'.sendInput line) t' := by
  rw [drive, h]
  simp only [turn, feed_encode]

/-- A driver that ends without a wait leaves the lines unread. -/
theorem drive_endsLike_of_exit {tracer : Tracer τ} {limit : Nat} {lines : List (List UInt8)}
    {s s₁ s' : Session σ} {t t₁ t' : τ} {outcome : Outcome} {result : Except RunError Unit}
    (h : Host.Reliable kept s.host) (hrun : s.execTraced tracer limit t = (outcome, s₁, t₁))
    (hwait : outcome ≠ .needInput)
    (hdrive : drive tracer limit lines s t = (some result, s', t')) (more : List Char) :
    EndsLike kept s.host (s.machine.feed more) .exit s' ∧ result = verdict .exit s' := by
  have hexec := execTraced_eq_exec tracer limit s t
  rw [hrun] at hexec
  cases outcome with
  | next =>
    rw [drive_of_next hrun] at hdrive
    cases hdrive
  | needInput => exact absurd rfl hwait
  | exit =>
    obtain ⟨out, hends, hkept, -⟩ := ends_of_exec h hexec.symm (by simp)
    cases (drive_of_exit hrun _).symm.trans hdrive
    exact ⟨endsLike_of_exit hends hkept more, rfl⟩

/-- A driver that ends has come to the end of the run on all its lines. -/
theorem drive_endsLike {tracer : Tracer τ} {limit : Nat} {pieces : List String} {s s' : Session σ}
    {t t' : τ} {result : Except RunError Unit} (h : Host.Reliable kept s.host)
    (hne : ∀ piece ∈ pieces, piece ≠ "")
    (hdrive : drive tracer limit (pieces.map fun piece => Input.encode piece.toList) s t =
      (some result, s', t')) :
    ∃ outcome, EndsLike kept s.host (s.machine.feed (received pieces)) outcome s' ∧
      result = verdict outcome s' := by
  induction pieces generalizing s t with
  | nil =>
    have hexec := execTraced_eq_exec tracer limit s t
    rcases hrun : s.execTraced tracer limit t with ⟨outcome, s₁, t₁⟩
    by_cases hwait : outcome = .needInput
    · -- There is nothing more to give, and nothing more that the single run has.
      subst hwait
      rw [hrun] at hexec
      obtain ⟨out, hends, hkept, -⟩ := ends_of_exec h hexec.symm (by simp)
      cases (drive_of_needInput_nil hrun).symm.trans hdrive
      exact ⟨.needInput, ⟨_, out, s.machine.feed_nil.symm ▸ hends, .refl _, hkept⟩, rfl⟩
    · exact ⟨.exit, drive_endsLike_of_exit h hrun hwait hdrive _⟩
  | cons piece rest ih =>
    have hexec := execTraced_eq_exec tracer limit s t
    rcases hrun : s.execTraced tracer limit t with ⟨outcome, s₁, t₁⟩
    by_cases hwait : outcome = .needInput
    · subst hwait
      rw [hrun] at hexec
      obtain ⟨out, hends, hkept, hreliable⟩ := ends_of_exec h hexec.symm (by simp)
      rw [List.map_cons, drive_of_needInput_cons hrun] at hdrive
      obtain ⟨outcome, hrest, hresult⟩ := ih (s := s₁.sendInput piece) (hreliable.log _)
        (fun p hp => hne p (List.mem_cons_of_mem _ hp)) hdrive
      exact ⟨outcome, hrest.cons hends hkept hreliable (hne piece List.mem_cons_self), hresult⟩
    · exact ⟨.exit, drive_endsLike_of_exit h hrun hwait hdrive _⟩

/-- Once the run on all the lines has an end, the driver has one. -/
theorem drive_ends (tracer : Tracer τ) {pieces : List String} {s : Session σ}
    (h : Host.Reliable kept s.host) (hne : ∀ piece ∈ pieces, piece ≠ "") {outcome : Outcome}
    {m' : Machine} {out : List Char}
    (hends : (s.machine.feed (received pieces)).Ends outcome m' out) :
    ∃ limit, ∀ k t, (drive tracer (limit + k)
      (pieces.map fun piece => Input.encode piece.toList) s t).1 ≠ none := by
  obtain ⟨outcome₁, m₁, out₁, hends₁⟩ := hends.of_feed
  obtain ⟨limit₁, host, hexec⟩ := exec_of_ends h hends₁
  have hrun (k : Nat) (t : τ) :
      ∃ t', s.execTraced tracer (limit₁ + k) t = (outcome₁, ⟨m₁, host⟩, t') := by
    have hsame := (execTraced_eq_exec tracer (limit₁ + k) s t).trans (hexec k)
    rcases hrun : s.execTraced tracer (limit₁ + k) t with ⟨outcome, s', t'⟩
    rw [hrun] at hsame
    cases hsame
    exact ⟨t', rfl⟩
  -- Only a run that waits and finds a line goes on with the next one.
  cases outcome₁ with
  | next => exact absurd rfl hends₁.ne_next
  | exit =>
    refine ⟨limit₁, fun k t => ?_⟩
    obtain ⟨t', hrun⟩ := hrun k t
    rw [drive_of_exit hrun]
    simp
  | needInput =>
    cases pieces with
    | nil =>
      refine ⟨limit₁, fun k t => ?_⟩
      obtain ⟨t', hrun⟩ := hrun k t
      rw [List.map_nil, drive_of_needInput_nil hrun]
      simp
    | cons piece rest =>
      obtain ⟨-, -, -, hreliable⟩ := ends_of_exec h (hexec 0) hends₁.ne_next
      obtain ⟨n', out', hends'⟩ := ends_rest hends hends₁ (hne piece List.mem_cons_self)
      obtain ⟨limit₂, hrest⟩ := drive_ends tracer (s := sendInput ⟨m₁, host⟩ piece)
        (hreliable.log _) (fun p hp => hne p (List.mem_cons_of_mem _ hp)) hends'
      refine ⟨limit₁ + limit₂, fun k t => ?_⟩
      obtain ⟨t', hrun⟩ := hrun (limit₂ + k) t
      rw [← Nat.add_assoc] at hrun
      rw [List.map_cons, drive_of_needInput_cons hrun,
        show limit₁ + limit₂ + k = limit₂ + (limit₁ + k) by omega]
      exact hrest (limit₁ + k) t'

/-- Driving a program on standard input comes to what a single run comes to that has all of
standard input from the start. -/
theorem drive_eq_sendInput {s : Session σ} (h : Host.Reliable kept s.host) (tracer : Tracer τ)
    (text : String) (t : τ) :
    ((∃ limit, (drive tracer limit (Input.lines text.toUTF8.data.toList) s t).1 ≠ none) ↔
      ∃ limit, ((s.sendInput text).exec limit).1 ≠ .next) ∧
    ∀ limit limit' result s' t',
      drive tracer limit (Input.lines text.toUTF8.data.toList) s t = (some result, s', t') →
      ((s.sendInput text).exec limit').1 ≠ .next →
      let atOnce := (s.sendInput text).exec limit'
      s'.machine.AgreesWith atOnce.2.machine ∧ kept s'.host = kept atOnce.2.host ∧
        (atOnce.1 = .exit →
          (result = .ok () ↔ s'.machine.fault = none) ∧
          (s'.machine.fault = none → s'.machine.halted = true) ∧
          ∀ f, s'.machine.fault = some f → result = .error (.fault f)) ∧
        (atOnce.1 = .needInput → result = .error .inputClosed ∧
          RunError.inputClosed.message = "input closed while the program was waiting for it") := by
  have hne := textLines_ne_empty text
  have htext : (s.sendInput text).machine = s.machine.feed (received (textLines text)) := by
    rw [received_eq_normalize_join hne (textLines_keepLineEndings text), join_textLines]
    rfl
  have hsent : Host.Reliable kept (s.sendInput text).host := h.log _
  rw [lines_toUTF8]
  refine ⟨?_, fun limit limit' result s' t' hdrive hover => ?_⟩
  · rw [exec_ends_iff hsent, htext]
    constructor
    · intro hdriven
      obtain ⟨limit, hover⟩ := hdriven
      obtain ⟨result, hresult⟩ := Option.ne_none_iff_exists'.mp hover
      obtain ⟨outcome, ⟨m', out, hends, -, -⟩, -⟩ := drive_endsLike h hne (Prod.ext hresult rfl)
      exact ⟨outcome, m', out, hends⟩
    · intro hall
      obtain ⟨outcome, m', out, hends⟩ := hall
      obtain ⟨limit, hover⟩ := drive_ends tracer h hne hends
      exact ⟨limit, hover 0 t⟩
  · obtain ⟨outcome, hends, rfl⟩ := drive_endsLike h hne hdrive
    have hall := exec_sendInput_endsLike h text hover
    rw [← Machine.receive_eq_feed, show s.machine.receive text = _ from htext] at hall
    obtain ⟨houtcome, hagree, hkept⟩ := hends.unique hall rfl
    refine ⟨hagree, hkept, fun hexit => ?_, fun hwait => ?_⟩
    · obtain rfl : outcome = .exit := houtcome.trans hexit
      exact verdict_exit hends
    · rw [houtcome, hwait]
      exact ⟨rfl, rfl⟩

/-- The program writes back the first characters of two lines and then waits for a third. -/
theorem drive_eq_sendInput_twoLines :
    let s := (fresh.load [20, 0, 0, 128, 19, 0, 0, 128, 20, 0, 0, 128, 20, 0, 0, 128, 19, 0, 0, 128,
      20, 0, 0, 128, 20, 0, 0, 128]).2
    let driven := drive .silent 9 (Input.lines "a\r\nb\n".toUTF8.data.toList) s ()
    let atOnce := (s.sendInput "a\r\nb\n").exec 9
    driven.2.1.host.bytes = [97, 98] ∧ driven.2.1.machine.AgreesWith atOnce.2.machine ∧
      driven.2.1.host.bytes = atOnce.2.host.bytes ∧ driven.1 = some (.error .inputClosed) := by
  intro s driven atOnce
  have hreliable : Host.Reliable Host.Bounded.bytes s.host := fresh_reliable.log _
  have hends : driven.2.1.host.bytes = [97, 98] ∧ driven.1 = some (.error .inputClosed) ∧
      atOnce.1 = .needInput := by
    decide +kernel
  obtain ⟨hbytes, hresult, houtcome⟩ := hends
  obtain ⟨hagree, hkept, -, hclosed⟩ :=
    (drive_eq_sendInput hreliable .silent "a\r\nb\n" ()).2 9 9 _ _ _ (Prod.ext hresult rfl)
      (by rw [houtcome]; simp)
  exact ⟨hbytes, hagree, hkept, hresult.trans (congrArg some (hclosed houtcome).1)⟩

end Cli

end WordVM
