import WordVM.Proofs.Feed

/-!
# Deliveries

A user who runs a session, gives it a piece of text whenever the run stops, and runs it again,
comes to what a single run comes to that has all the text from the start
(`Session.deliver_eq_sendInput`). The runs end for the same texts, with the same outcome, and the
sessions agree on everything but the input that is left, the instruction that waits, and how often
the host was flushed.

The pieces must not be empty, since a run that is given nothing still waits, and no cut may separate
a carriage return from its line feed, since only the two of them together are a single character.
-/

namespace WordVM.Session

variable {σ : Type} [Host σ] {kept : σ → List UInt8}

/-- Runs, and runs again after each of the given pieces of text has been sent, with at most `limit`
steps for each run. The outcome is the one of the last run, or `next` if a run reaches the limit. -/
def deliver (limit : Nat) : List String → Session σ → Outcome × Session σ
  | [], s => s.exec limit
  | piece :: rest, s =>
    match s.exec limit with
    | (.next, s) => (.next, s)
    | (_, s) => deliver limit rest (s.sendInput piece)

theorem deliver_cons {limit : Nat} {s s' : Session σ} {outcome : Outcome} (piece : String)
    (rest : List String) (hexec : s.exec limit = (outcome, s')) (hover : outcome ≠ .next) :
    s.deliver limit (piece :: rest) = (s'.sendInput piece).deliver limit rest := by
  rw [deliver, hexec]
  cases outcome with
  | next => exact absurd rfl hover
  | needInput => rfl
  | exit => rfl

/-- What the machine has received after some pieces. -/
def received (pieces : List String) : List Char :=
  (pieces.map fun piece => Input.normalize piece.toList).flatten

theorem received_cons_ne_nil {piece : String} (h : piece ≠ "") (rest : List String) :
    received (piece :: rest) ≠ [] := by
  have hpiece : Input.normalize piece.toList ≠ [] :=
    Input.normalize_ne_nil fun hnil => h (String.toList_eq_nil_iff.mp hnil)
  exact List.append_ne_nil_of_left_ne_nil hpiece _

theorem feed_received_cons (m : Machine) (piece : String) (rest : List String) :
    m.feed (received (piece :: rest)) = (m.receive piece).feed (received rest) := by
  rw [Machine.receive_eq_feed, Machine.feed_feed]
  rfl

/-- The first of some runs leads to where the second one starts, with a piece of text more. -/
theorem EndsLike.cons {s s₁ s' : Session σ} {outcome outcome₁ : Outcome} {out : List Char}
    {piece : String} {rest : List String}
    (hrest : EndsLike kept (s₁.sendInput piece).host
      ((s₁.sendInput piece).machine.feed (received rest)) outcome s')
    (hends : s.machine.Ends outcome₁ s₁.machine out)
    (hkept : kept s₁.host = kept s.host ++ Input.encode out)
    (hreliable : Host.Reliable kept s₁.host) (hpiece : piece ≠ "") :
    EndsLike kept s.host (s.machine.feed (received (piece :: rest))) outcome s' := by
  have hleads := hends.feed fun _ => received_cons_ne_nil hpiece rest
  rw [feed_received_cons s₁.machine] at hleads
  apply hrest.of_leads hleads
  rw [sendInput, hreliable.kept_log, hkept]

/-- If the run on all the text has an end, so has the one that starts after the first piece. -/
theorem ends_rest {m m₁ n : Machine} {outcome outcome₁ : Outcome} {out out₁ : List Char}
    {piece : String} {rest : List String}
    (hends : (m.feed (received (piece :: rest))).Ends outcome n out)
    (hends₁ : m.Ends outcome₁ m₁ out₁) (hpiece : piece ≠ "") :
    ∃ n' out', ((m₁.receive piece).feed (received rest)).Ends outcome n' out' := by
  have hleads := hends₁.feed fun _ => received_cons_ne_nil hpiece rest
  rw [feed_received_cons m₁] at hleads
  obtain ⟨n', out', -, hends', -⟩ := hleads.forth hends
  exact ⟨n', out', hends'⟩

/-- Each delivery leads on, so the last run ends like the machine that has all the text. -/
theorem deliver_endsLike {s : Session σ} (h : Host.Reliable kept s.host) {pieces : List String}
    (hne : ∀ piece ∈ pieces, piece ≠ "") {limit : Nat} (hover : (s.deliver limit pieces).1 ≠ .next) :
    EndsLike kept s.host (s.machine.feed (received pieces)) (s.deliver limit pieces).1
      (s.deliver limit pieces).2 := by
  induction pieces generalizing s with
  | nil =>
    obtain ⟨out, hends, hkept, -⟩ := ends_of_exec h rfl hover
    exact ⟨_, out, (s.machine.feed_nil).symm ▸ hends, .refl _, hkept⟩
  | cons piece rest ih =>
    rcases hexec : s.exec limit with ⟨outcome, s₁⟩
    by_cases hnext : outcome = .next
    · subst hnext
      rw [deliver, hexec] at hover
      exact absurd rfl hover
    · rw [deliver_cons piece rest hexec hnext] at hover ⊢
      obtain ⟨out, hends, hkept, hreliable⟩ := ends_of_exec h hexec hnext
      have hrest := ih (s := s₁.sendInput piece) (hreliable.log _)
        (fun p hp => hne p (List.mem_cons_of_mem _ hp)) hover
      exact hrest.cons hends hkept hreliable (hne piece List.mem_cons_self)

/-- Once the run on all the text has an end, so have the runs on its pieces. -/
theorem deliver_ends {s : Session σ} (h : Host.Reliable kept s.host) {pieces : List String}
    (hne : ∀ piece ∈ pieces, piece ≠ "") {outcome : Outcome} {m' : Machine} {out : List Char}
    (hends : (s.machine.feed (received pieces)).Ends outcome m' out) :
    ∃ limit, ∀ k, (s.deliver (limit + k) pieces).1 ≠ .next := by
  induction pieces generalizing s outcome m' out with
  | nil =>
    rw [received, List.map_nil, List.flatten_nil, Machine.feed_nil] at hends
    obtain ⟨limit, host, hexec⟩ := exec_of_ends h hends
    refine ⟨limit, fun k => ?_⟩
    rw [deliver, hexec]
    exact hends.ne_next
  | cons piece rest ih =>
    -- The first run ends, since even with more input it would.
    obtain ⟨outcome₁, m₁, out₁, hends₁⟩ := hends.of_feed
    obtain ⟨limit₁, host, hexec⟩ := exec_of_ends h hends₁
    obtain ⟨-, -, -, hreliable⟩ := ends_of_exec h (hexec 0) hends₁.ne_next
    obtain ⟨n', out', hends'⟩ := ends_rest hends hends₁ (hne piece List.mem_cons_self)
    obtain ⟨limit₂, hrest⟩ := ih (s := sendInput ⟨m₁, host⟩ piece) (hreliable.log _)
      (fun p hp => hne p (List.mem_cons_of_mem _ hp)) hends'
    -- One limit serves all the runs, so it has to be high enough for each of them.
    refine ⟨limit₁ + limit₂, fun k => ?_⟩
    have hexec' := hexec (limit₂ + k)
    rw [← Nat.add_assoc] at hexec'
    rw [deliver_cons piece rest hexec' hends₁.ne_next,
      show limit₁ + limit₂ + k = limit₂ + (limit₁ + k) by omega]
    exact hrest (limit₁ + k)

/-- No cut between the pieces separates a carriage return from its line feed. -/
def KeepsLineEndings (pieces : List String) : Prop :=
  pieces.IsChain fun a b => ¬ (a.toList.getLast? = some '\r' ∧ b.toList.head? = some '\n')

theorem received_eq_normalize_join {pieces : List String} (hne : ∀ piece ∈ pieces, piece ≠ "")
    (hcut : KeepsLineEndings pieces) :
    received pieces = Input.normalize (String.join pieces).toList := by
  have htexts : ∀ text ∈ pieces.map String.toList, text ≠ [] := by
    intro text htext
    obtain ⟨piece, hpiece, rfl⟩ := List.mem_map.mp htext
    exact fun hnil => hne piece hpiece (String.toList_eq_nil_iff.mp hnil)
  have hchain : (pieces.map String.toList).IsChain Input.Uncut := (List.isChain_map _).mpr hcut
  rw [String.toList_join, List.flatMap_def, Input.normalize_flatten htexts hchain, List.map_map]
  rfl

/-- How input is cut into deliveries does not matter. -/
theorem deliver_eq_sendInput {s : Session σ} (h : Host.Reliable kept s.host)
    {pieces : List String} (hne : ∀ piece ∈ pieces, piece ≠ "") (hcut : KeepsLineEndings pieces) :
    ((∃ limit, (s.deliver limit pieces).1 ≠ .next) ↔
      ∃ limit, ((s.sendInput (String.join pieces)).exec limit).1 ≠ .next) ∧
    ∀ limit limit', (s.deliver limit pieces).1 ≠ .next →
      ((s.sendInput (String.join pieces)).exec limit').1 ≠ .next →
      let inPieces := s.deliver limit pieces
      let atOnce := (s.sendInput (String.join pieces)).exec limit'
      inPieces.1 = atOnce.1 ∧ inPieces.2.machine.AgreesWith atOnce.2.machine ∧
        kept inPieces.2.host = kept atOnce.2.host := by
  have htext : (s.sendInput (String.join pieces)).machine = s.machine.feed (received pieces) := by
    rw [received_eq_normalize_join hne hcut]
    rfl
  have hsent : Host.Reliable kept (s.sendInput (String.join pieces)).host := h.log _
  refine ⟨?_, fun limit limit' hover hover' => ?_⟩
  · rw [exec_ends_iff hsent, htext]
    constructor
    · intro hpieces
      obtain ⟨limit, hover⟩ := hpieces
      obtain ⟨m', out, hends, -, -⟩ := deliver_endsLike h hne hover
      exact ⟨_, m', out, hends⟩
    · intro hall
      obtain ⟨outcome, m', out, hends⟩ := hall
      obtain ⟨limit, hover⟩ := deliver_ends h hne hends
      exact ⟨limit, hover 0⟩
  -- Both histories end like the machine that has all the text, and that has one end only.
  · have hall := exec_sendInput_endsLike h (String.join pieces) hover'
    rw [← received_eq_normalize_join hne hcut] at hall
    exact (deliver_endsLike h hne hover).unique hall rfl

/-- The program writes back two characters, which may come one at a time. -/
theorem deliver_eq_sendInput_echo :
    let s := (fresh.load [20, 0, 0, 128, 19, 0, 0, 128, 20, 0, 0, 128, 19, 0, 0, 128]).2
    let inPieces := s.deliver 9 ["o", "k"]
    let atOnce := (s.sendInput (String.join ["o", "k"])).exec 9
    inPieces.1 = .exit ∧ inPieces.2.host.bytes = [111, 107] ∧
      inPieces.1 = atOnce.1 ∧ inPieces.2.machine.AgreesWith atOnce.2.machine ∧
      inPieces.2.host.bytes = atOnce.2.host.bytes := by
  intro s inPieces atOnce
  have hreliable : Host.Reliable Host.Bounded.bytes s.host := fresh_reliable.log _
  have hne : ∀ piece ∈ ["o", "k"], piece ≠ "" := by decide
  have hcut : KeepsLineEndings ["o", "k"] := by simp [KeepsLineEndings]
  have hends : inPieces.1 = .exit ∧ inPieces.2.host.bytes = [111, 107] ∧ atOnce.1 ≠ .next := by
    decide +kernel
  obtain ⟨houtcome, hbytes, hover⟩ := hends
  exact ⟨houtcome, hbytes,
    (deliver_eq_sendInput hreliable hne hcut).2 9 9 (by rw [houtcome]; simp) hover⟩

end WordVM.Session
