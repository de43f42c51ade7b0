import WordVM.Proofs.Host.Reliable

/-!
# Limited hosts

A host is limited to a capacity if it keeps what it takes until that many bytes are kept, takes
something of every write as long as there is room, and takes nothing after that. How much it takes
at a time makes no difference to what it keeps in the end: of bytes to be written it keeps as many
as there is room for, and the write fails exactly if that is not all of them (`Limited.writeAll`).

So a limited host takes what it has room for (`Limited.takes`). An output instruction whose character
does not fit fails (`Session.execute_of_full`).
-/

namespace WordVM

namespace Host

variable {σ : Type} [Host σ] {kept : σ → List UInt8} {capacity : Nat}

/-- The hosts of a kind take something of every write as long as they have kept less than
`capacity` bytes, and nothing afterwards. They keep what they take. Flushes and log events leave it
as it is. None of this leads out of the kind. -/
structure AcceptsUpTo (capacity : Nat) (kept : σ → List UInt8) (good : σ → Prop) : Prop where
  length_le : ∀ host, good host → (kept host).length ≤ capacity
  write : ∀ host b rest, good host → (kept host).length < capacity →
    ∃ n host', write host (b :: rest) = (.ok (n + 1), host') ∧
      kept host' = kept host ++ (b :: rest).take (n + 1) ∧ good host'
  full : ∀ host b rest, good host → (kept host).length = capacity →
    ∃ answer host', Host.write host (b :: rest) = (answer, host') ∧ (∀ n, answer ≠ .ok (n + 1)) ∧
      kept host' = kept host ∧ good host'
  flush : ∀ host, good host → ∃ host', flush host = (.ok (), host') ∧
    kept host' = kept host ∧ good host'
  log : ∀ host event, good host → kept (log host event) = kept host ∧ good (log host event)

/-- The host has room for `capacity` bytes, of which `kept` is what has been written, and no flush
of it will ever fail. -/
def Limited (capacity : Nat) (kept : σ → List UInt8) (host : σ) : Prop :=
  ∃ good, AcceptsUpTo capacity kept good ∧ good host

namespace Limited

theorem length_le {host : σ} (h : Limited capacity kept host) : (kept host).length ≤ capacity := by
  obtain ⟨good, accepts, hgood⟩ := h
  exact accepts.length_le host hgood

private theorem writeRest_full {host : σ} (h : Limited capacity kept host)
    (hfull : (kept host).length = capacity) (b : UInt8) (rest : List UInt8) :
    ∃ reason host', Host.writeRest host 0 (b :: rest) = (.error reason, host') ∧
      kept host' = kept host ∧ Limited capacity kept host' := by
  obtain ⟨good, accepts, hgood⟩ := h
  obtain ⟨answer, host', hwrite, hnone, hkept, hgood'⟩ := accepts.full host b rest hgood hfull
  rw [Host.writeRest, hwrite]
  cases answer with
  | error reason => exact ⟨reason, host', rfl, hkept, good, accepts, hgood'⟩
  | ok n =>
    cases n with
    | zero => exact ⟨_, host', rfl, hkept, good, accepts, hgood'⟩
    | succ n => exact absurd rfl (hnone n)

private theorem writeRest {host : σ} (h : Limited capacity kept host) (taken : Nat)
    (bytes : List UInt8) :
    ∃ answer host', Host.writeRest host taken bytes = (answer, host') ∧
      kept host' = (kept host ++ bytes.drop taken).take capacity ∧
      (answer = .ok () ↔ (kept host ++ bytes.drop taken).length ≤ capacity) ∧
      Limited capacity kept host' := by
  have hle := h.length_le
  induction bytes generalizing host taken with
  | nil =>
    refine ⟨.ok (), host, by rw [Host.writeRest], ?_, ?_, h⟩
    · rw [List.drop_nil, List.append_nil, List.take_of_length_le hle]
    · simpa using hle
  | cons b rest ih =>
    cases taken with
    | succ taken => simpa only [Host.writeRest, List.drop_succ_cons] using ih h taken hle
    | zero =>
      rw [List.drop_zero]
      by_cases hroom : (kept host).length < capacity
      -- The host takes at least one byte, so the induction goes on with fewer of them.
      · obtain ⟨good, accepts, hgood⟩ := h
        obtain ⟨n, host₁, hwrite, hkept, hgood₁⟩ := accepts.write host b rest hgood hroom
        have hsplit : kept host₁ ++ rest.drop n = kept host ++ b :: rest := by
          rw [hkept, List.append_assoc, List.take_succ_cons, List.cons_append,
            List.take_append_drop]
        obtain ⟨answer, host', hrest, hresult⟩ :=
          ih ⟨good, accepts, hgood₁⟩ n (accepts.length_le host₁ hgood₁)
        rw [hsplit] at hresult
        refine ⟨answer, host', ?_, hresult⟩
        rw [Host.writeRest, hwrite]
        exact hrest
      · have hfull : (kept host).length = capacity := by omega
        obtain ⟨reason, host', hwrite, hkept, h'⟩ := h.writeRest_full hfull b rest
        refine ⟨.error reason, host', hwrite, ?_, ?_, h'⟩
        · rw [hkept, List.take_left' hfull]
        · simp [hfull]

/-- Of the bytes written as many are kept as there is room for, however many the host takes at a
time. The write succeeds exactly if there is room for all of them. -/
theorem writeAll {host : σ} (h : Limited capacity kept host) (bytes : List UInt8) :
    ∃ answer host', Host.writeAll host bytes = (answer, host') ∧
      kept host' = (kept host ++ bytes).take capacity ∧
      (answer = .ok () ↔ (kept host ++ bytes).length ≤ capacity) ∧
      Limited capacity kept host' :=
  h.writeRest 0 bytes

/-- To a limited host bytes are fitting as long as there is room for all of them. -/
theorem takes : TakesFitting (·.length ≤ capacity) kept (Limited capacity kept) where
  writeAll {host} bytes h hroom := by
    obtain ⟨answer, host', hwrite, hkept, hanswer, h'⟩ := h.writeAll bytes
    refine ⟨host', ?_, ?_, h'⟩
    · rw [hwrite, hanswer.mpr hroom]
    · rw [hkept, List.take_of_length_le hroom]
  flush {host} h := by
    obtain ⟨good, accepts, hgood⟩ := h
    obtain ⟨host', hflush, hkept, hgood'⟩ := accepts.flush host hgood
    exact ⟨host', hflush, hkept, good, accepts, hgood'⟩
  log host event h := by
    obtain ⟨hkept, good, accepts, hgood⟩ := h
    obtain ⟨hsame, hgood'⟩ := accepts.log host event hgood
    exact ⟨hsame.trans hkept, good, accepts, hgood'⟩

end Limited

/-- A bounded host with a capacity is limited to it, whatever it takes at a time and however it
refuses. -/
theorem Bounded.limited {host : Bounded} (hcapacity : host.capacity = some capacity)
    (hchunk : ∀ chunk ∈ host.chunk, 1 ≤ chunk) (hflush : host.flushLimit = none)
    (hkept : host.kept.size ≤ capacity) : Limited capacity Bounded.bytes host := by
  refine ⟨fun host => host.capacity = some capacity ∧ (∀ chunk ∈ host.chunk, 1 ≤ chunk) ∧
    host.flushLimit = none ∧ host.kept.size ≤ capacity, ?_, hcapacity, hchunk, hflush, hkept⟩
  constructor
  · intro host hgood
    exact hgood.2.2.2
  · intro host b rest hgood hroom
    obtain ⟨hcapacity, hchunk, hflush, hkept⟩ := hgood
    have hroom : host.kept.size < capacity := hroom
    -- There is room for at least one byte, and no more bytes are taken than fit.
    obtain ⟨n, hn, hle, hfits⟩ : ∃ n, host.room (rest.length + 1) = n + 1 ∧ n ≤ rest.length ∧
        host.kept.size + (n + 1) ≤ capacity := by
      refine ⟨host.room (rest.length + 1) - 1, ?_⟩
      simp only [room, hcapacity, Option.elim_some]
      cases hc : host.chunk with
      | none =>
        simp only [Option.elim_none]
        omega
      | some chunk =>
        have hpos := hchunk chunk hc
        simp only [Option.elim_some]
        omega
    refine ⟨n, { host with kept := host.kept ++ (b :: rest).take (n + 1) }, ?_, ?_, hcapacity,
      hchunk, hflush, ?_⟩
    · simp only [Host.write, Bounded.write, List.length_cons, hn]
    · exact Array.toList_appendList
    · show (host.kept ++ (b :: rest).take (n + 1)).size ≤ capacity
      rw [← Array.length_toList, Array.toList_appendList, List.length_append, List.length_take,
        List.length_cons, Array.length_toList]
      omega
  · intro host b rest hgood hfull
    have hcapacity := hgood.1
    have hfull : host.kept.size = capacity := hfull
    have hroom : host.room (rest.length + 1) = 0 := by
      simp only [room, hcapacity, hfull, Option.elim_some, Nat.sub_self, Nat.min_zero]
      cases host.chunk <;> simp
    cases hwhen : host.whenFull with
    | takeNothing =>
      refine ⟨.ok 0, host, ?_, by simp, rfl, hgood⟩
      simp only [Host.write, Bounded.write, List.length_cons, hroom, hwhen]
    | refuse =>
      refine ⟨.error "sink full", host, ?_, by simp, rfl, hgood⟩
      simp only [Host.write, Bounded.write, List.length_cons, hroom, hwhen]
  · intro host hgood
    refine ⟨{ host with flushes := host.flushes + 1 }, ?_, rfl, hgood⟩
    simp [Host.flush, Bounded.flush, hgood.2.2.1]
  · exact fun host event h => ⟨rfl, h⟩

end Host

namespace Session

variable {σ : Type} [Host σ] {kept : σ → List UInt8} {capacity : Nat}

/-- Without room for its character an output instruction fails. The host keeps the part of the
character that fits. -/
theorem execute_of_full {s : Session σ} (h : Host.Limited capacity kept s.host) {i : Instruction}
    {c : Char} (hperform : s.machine.perform i = (s.machine, .emit c))
    (hfull : capacity < (kept s.host ++ String.utf8EncodeChar c).length) :
    ∃ reason host, s.execute i = (.error (.output reason), ⟨s.machine.record (.output reason), host⟩) ∧
      kept host = (kept s.host ++ String.utf8EncodeChar c).take capacity ∧
      Host.Limited capacity kept host := by
  obtain ⟨answer, host, hwrite, hkept, hanswer, hlimited⟩ := h.writeAll (String.utf8EncodeChar c)
  simp only [execute, hperform, hwrite]
  cases answer with
  | ok done => exact absurd (hanswer.mp rfl) (Nat.not_le.mpr hfull)
  | error reason =>
    have hsame := fail_host (s := ⟨s.machine, host⟩) Host.Limited.takes.log
      ⟨hkept, hlimited⟩ (.output reason)
    refine ⟨reason, _, ?_, hsame⟩
    rw [← fail_machine ⟨s.machine, host⟩]

end Session

end WordVM
