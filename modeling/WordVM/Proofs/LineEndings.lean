import WordVM.Proofs.Cli.Drive
import WordVM.Proofs.InputFlow

/-!
# Line endings

A text takes fewer places in the input than it has characters: one less for every carriage return
that has a line feed right behind it (`Input.length_normalize`). So two texts that are sent one
after the other come to the same as both of them at once, unless the cut between them separates such
a pair; then one place more is taken (`Input.normalize_append_iff`).

What a program reads of a text does not depend on how lines end: `Input.readings` reads a pair, a
line feed and a carriage return alike as 10. `Session.sendInput_lineEndings` puts this together for
the text that a machine is sent and the input instructions that read it.
-/

namespace WordVM

namespace Input

/-- How many carriage returns of a text have a line feed right behind them. -/
def pairs (text : List Char) : Nat := (text.zip text.tail).count ('\r', '\n')

/-- The codes that a text reads as, whatever its line endings are. -/
def readings : List Char → List Nat
  | [] => []
  | '\r' :: '\n' :: rest => 10 :: readings rest
  | c :: rest => (if c = '\n' ∨ c = '\r' then 10 else c.toNat % 32768) :: readings rest

/-- The codes of characters that have arrived. -/
def codes (input : List Char) : List Nat := input.map fun c => (code c).toNat

theorem codes_append (a b : List Char) : codes (a ++ b) = codes a ++ codes b := List.map_append

variable {a b : List Char}

/-! ## One character at a time -/

theorem pairs_cons (c : Char) (rest : List Char) :
    pairs (c :: rest) = pairs rest + if c = '\r' ∧ rest.head? = some '\n' then 1 else 0 := by
  cases rest with
  | nil => simp [pairs]
  | cons d more => simp [pairs, List.count_cons]

/-- Only a carriage return that begins a pair is dropped. -/
theorem normalize_cons_eq (c : Char) (rest : List Char) :
    normalize (c :: rest) =
      if c = '\r' ∧ rest.head? = some '\n' then normalize rest else c :: normalize rest := by
  split
  · next h =>
    obtain ⟨rfl, hfeed⟩ := h
    obtain ⟨more, rfl⟩ := List.head?_eq_some_iff.mp hfeed
    rw [normalize, normalize_cons (by simp)]
  · next h => exact normalize_cons h

/-- A space has the code of its own number, so only line endings have codes to themselves. -/
theorem toNat_code_eq (c : Char) :
    (code c).toNat = if c = '\n' ∨ c = '\r' then 10 else c.toNat % 32768 := by
  by_cases hspace : c = ' '
  · subst hspace
    rfl
  · rw [toNat_code, if_neg hspace]

/-- A carriage return that begins a pair reads as nothing, since the line feed reads as 10. -/
theorem readings_cons (c : Char) (rest : List Char) :
    readings (c :: rest) =
      if c = '\r' ∧ rest.head? = some '\n' then readings rest
      else (code c).toNat :: readings rest := by
  split
  · next h =>
    obtain ⟨rfl, hfeed⟩ := h
    obtain ⟨more, rfl⟩ := List.head?_eq_some_iff.mp hfeed
    rw [readings, readings, if_pos (.inl rfl)]
    simp
  · next h =>
    rw [readings, toNat_code_eq]
    rintro more rfl rfl
    exact h ⟨rfl, rfl⟩

/-! ## Whole texts -/

/-- Of each pair one character is left. -/
theorem length_normalize (text : List Char) :
    (normalize text).length + pairs text = text.length := by
  induction text with
  | nil => rfl
  | cons c rest ih =>
    rw [normalize_cons_eq, pairs_cons, List.length_cons]
    split
    · omega
    · rw [List.length_cons]
      omega

/-- What is left of a text has the codes that the text reads as. -/
theorem codes_normalize (text : List Char) : codes (normalize text) = readings text := by
  induction text with
  | nil => rfl
  | cons c rest ih =>
    rw [normalize_cons_eq, readings_cons, ← ih]
    split <;> rfl

theorem pairs_append (a b : List Char) :
    pairs (a ++ b) =
      pairs a + pairs b + if a.getLast? = some '\r' ∧ b.head? = some '\n' then 1 else 0 := by
  induction a with
  | nil => simp [pairs]
  | cons c rest ih =>
    rw [List.cons_append, pairs_cons, pairs_cons, ih]
    -- Only the last character of the first text has its neighbour in the second.
    cases rest with
    | nil => simp [pairs]
    | cons d more =>
      have hhead : (d :: more ++ b).head? = (d :: more).head? := rfl
      rw [hhead, List.getLast?_cons_cons]
      omega

/-- Texts can be normalized one by one exactly if no pair is cut. -/
theorem normalize_append_iff :
    normalize (a ++ b) = normalize a ++ normalize b ↔
      ¬ (a.getLast? = some '\r' ∧ b.head? = some '\n') := by
  constructor
  · intro hsame hcut
    -- The pair that is cut counts for the whole text, but for neither of its parts.
    have hpairs := pairs_append a b
    rw [if_pos hcut] at hpairs
    have hwhole := length_normalize (a ++ b)
    have ha := length_normalize a
    have hb := length_normalize b
    rw [hsame, List.length_append, List.length_append] at hwhole
    omega
  · exact normalize_append

end Input

namespace Completion

/-- The code that the input instruction reads. -/
def reading? (c : Completion) : Option Nat := c.taken?.map fun char => (Input.code char).toNat

end Completion

namespace Session

variable {σ : Type} [Host σ]

/-- What input instructions read in the course of some actions, and what they would read of the
input that is left. -/
theorem readings_replay (s : Session σ) (actions : List Action) :
    (s.completions actions).filterMap Completion.reading? ++
        Input.codes (s.replay actions).2.machine.input =
      Input.codes s.machine.input ++ Input.codes (arrivals actions) := by
  have hcodes : (s.completions actions).filterMap Completion.reading? =
      Input.codes ((s.completions actions).filterMap Completion.taken?) := by
    rw [Input.codes, List.map_filterMap]
    rfl
  rw [hcodes, ← Input.codes_append, ← Input.codes_append, (s.replay_accounts actions).input]

theorem machine_foldl_sendInput (s : Session σ) (pieces : List String) :
    (pieces.foldl sendInput s).machine = s.machine.feed (received pieces) := by
  induction pieces generalizing s with
  | nil => exact s.machine.feed_nil.symm
  | cons piece rest ih =>
    rw [List.foldl_cons, ih, feed_received_cons]
    rfl

/-- Giving the bytes of some texts to the machine sends these texts. -/
theorem foldlM_feed_encode (s : Session σ) (pieces : List String) :
    (pieces.map fun piece => Input.encode piece.toList).foldlM
      (fun s line => Cli.feed line s) s = .ok (pieces.foldl sendInput s) := by
  induction pieces generalizing s with
  | nil => rfl
  | cons piece rest ih =>
    rw [List.map_cons, List.foldlM_cons, Cli.feed_encode]
    exact ih (s.sendInput piece)

/-- The lines of standard input make the machine receive what the whole text would. -/
theorem foldlM_feed_lines (s : Session σ) (text : String) :
    ∃ s', (Input.lines text.toUTF8.data.toList).foldlM (fun s line => Cli.feed line s) s = .ok s' ∧
      s'.machine = (s.sendInput text).machine := by
  have hreceived : received (Cli.textLines text) = Input.normalize text.toList := by
    rw [received_eq_normalize_join (Cli.textLines_ne_empty text)
      (Cli.textLines_keepLineEndings text), Cli.join_textLines]
  rw [Cli.lines_toUTF8]
  refine ⟨_, s.foldlM_feed_encode _, ?_⟩
  rw [machine_foldl_sendInput, hreceived]
  rfl

/-- How text reaches a program, whatever its line endings are.
* Two texts leave the same input as both at once, exactly if the first does not end with the
  carriage return of a line feed that the second begins with.
* A text adds as many characters as it has, less one for each carriage return with a line feed right
  behind it.
* Input instructions read what was there before, then the text, with one 10 for each line ending,
  and then what arrives later. What is left would be read next, and each code that is read goes to
  the register that the instruction names.
* The bytes of the text, cut after each line feed and given to the machine line by line, leave the
  machine that the text itself leaves. -/
theorem sendInput_lineEndings (s : Session σ) :
    (∀ a b : String,
      ((s.sendInput a).sendInput b).machine.input = (s.sendInput (a ++ b)).machine.input ↔
        ¬ (a.toList.getLast? = some '\r' ∧ b.toList.head? = some '\n')) ∧
    (∀ text : String, ∃ more, (s.sendInput text).machine.input = s.machine.input ++ more ∧
      more.length + Input.pairs text.toList = text.length) ∧
    (∀ (text : String) (actions : List Action),
      let sent := s.sendInput text
      (sent.completions actions).filterMap Completion.reading? ++
          Input.codes (sent.replay actions).2.machine.input =
        Input.codes s.machine.input ++ Input.readings text.toList ++
          Input.codes (arrivals actions) ∧
      ∀ c ∈ sent.completions actions, ∃ n, c.reading? = some n ∧
        ∀ r, (c.after.registers.get r).toNat =
          if c.destination.register? = some r then n else (c.before.registers.get r).toNat) ∧
    ∀ text : String, ∃ s',
      (Input.lines text.toUTF8.data.toList).foldlM (fun s line => Cli.feed line s) s = .ok s' ∧
        s'.machine = (s.sendInput text).machine := by
  refine ⟨fun a b => ?_, fun text => ?_, fun text actions => ⟨?_, fun c hc => ?_⟩,
    s.foldlM_feed_lines⟩
  · have hparts : ((s.sendInput a).sendInput b).machine.input =
        s.machine.input ++ (Input.normalize a.toList ++ Input.normalize b.toList) :=
      List.append_assoc ..
    have hwhole : (s.sendInput (a ++ b)).machine.input =
        s.machine.input ++ Input.normalize (a.toList ++ b.toList) := by
      rw [← String.toList_append]
      rfl
    rw [hparts, hwhole, List.append_cancel_left_eq, eq_comm, Input.normalize_append_iff]
  · exact ⟨_, rfl, Input.length_normalize _⟩
  · have hinput : (s.sendInput text).machine.input =
        s.machine.input ++ Input.normalize text.toList := rfl
    rw [readings_replay, hinput, Input.codes_append, Input.codes_normalize]
  · obtain ⟨char, hfirst, hregisters⟩ :=
      (((s.sendInput text).replay_accounts actions).reads c hc).registers_eq
    refine ⟨(Input.code char).toNat, ?_, fun r => ?_⟩
    · rw [Completion.reading?, Completion.taken?, hfirst]
      rfl
    · rw [hregisters, apply_ite UInt16.toNat]

/-- The program reads two codes. A text with a lone carriage return before a pair has three. -/
theorem sendInput_lineEndings_loneReturn :
    let s := (fresh.load [20, 0, 0, 128, 20, 0, 1, 128, 0, 0]).2
    ((s.sendInput "\r").sendInput "\n").machine.input ≠ (s.sendInput ("\r" ++ "\n")).machine.input ∧
      ((s.sendInput "\r\r\nb").completions [.step, .step]).filterMap Completion.reading? =
        [10, 10] := by
  intro s
  obtain ⟨hcut, -, hread, -⟩ := s.sendInput_lineEndings
  refine ⟨fun hsame => (hcut "\r" "\n").mp hsame ⟨rfl, rfl⟩, ?_⟩
  have hleft :
      Input.codes ((s.sendInput "\r\r\nb").replay [.step, .step]).2.machine.input = [98] := by
    decide +kernel
  have hall := (hread "\r\r\nb" [.step, .step]).1
  rw [hleft] at hall
  exact List.append_cancel_right (hall.trans rfl)

end Session

end WordVM
