import WordVM.Proofs.Tracing

/-!
# Loading another program

A load either changes nothing or forgets everything. After it a session answers the same to all that
it is asked for as any other session that has loaded the same program: `Session.ask` is one use of a
session, `Session.converse` a sequence of them, and `Session.converse_alike` compares two sessions
with equal machines on hosts that take everything. Images that differ in zeros at the end only are
the same program (`Memory.ofImage_eq_of_zeros`).
-/

namespace WordVM

/-- What lies behind an image in memory are zeros, so that zeros at its end make no difference. -/
theorem Memory.ofImage_eq_of_zeros {image image' : List UInt8} (fits : image.length ≤ size)
    (fits' : image'.length ≤ size) {a b : Nat}
    (h : image ++ List.replicate a 0 = image' ++ List.replicate b 0) :
    ofImage image fits = ofImage image' fits' := by
  -- Memory begins like the image with any number of zeros after it, if these are enough.
  have htake {bytes : List UInt8} (hbytes : bytes.length ≤ size) (n : Nat) :
      bytes ++ List.replicate (size - bytes.length) 0 =
        (bytes ++ List.replicate n 0 ++ List.replicate size 0).take size := by
    rw [List.append_assoc, List.replicate_append_replicate, List.take_append,
      List.take_of_length_le hbytes, List.take_replicate, Nat.min_eq_left (by omega)]
  have hbytes : image ++ List.replicate (size - image.length) 0 =
      image' ++ List.replicate (size - image'.length) 0 := by
    rw [htake fits a, htake fits' b, h]
  simp only [ofImage, hbytes]

namespace Session

/-- What a user asks of a session whose program has been loaded. A run comes with a limit on its
steps, and comes to its end if the limit is high enough. -/
inductive Command
  /-- Sends text to the machine. -/
  | send (text : String)
  /-- Runs without a tracer. -/
  | exec (limit : Nat)
  /-- Runs under a tracer. -/
  | execTraced (limit : Nat)
  /-- Fetches an instruction. -/
  | fetch
  /-- Executes an instruction. -/
  | execute (i : Instruction)

/-- What the user hears of it. -/
inductive Answer
  /-- The text has been received. -/
  | received
  /-- The run has this outcome. -/
  | ran (outcome : Outcome)
  /-- The run has this outcome, and the tracer has received these calls. -/
  | traced (outcome : Outcome) (calls : List Tracer.Call)
  /-- The fetch gives an instruction or a fault. -/
  | fetched (result : Except Fault Instruction)
  /-- The execution gives an outcome or a fault. -/
  | executed (result : Except Fault Outcome)

variable {σ υ : Type} [Host σ] [Host υ]

/-- Does what a command says. -/
def ask (s : Session σ) : Command → Answer × Session σ
  | .send text => (.received, s.sendInput text)
  | .exec limit =>
    let (outcome, s) := s.exec limit
    (.ran outcome, s)
  | .execTraced limit =>
    let (outcome, s, calls) := execTraced .recorder limit s []
    (.traced outcome calls, s)
  | .fetch =>
    let (result, s) := s.fetch
    (.fetched result, s)
  | .execute i =>
    let (result, s) := s.execute i
    (.executed result, s)

/-- The answers to some commands, each with the machine as it is then, and the session after all of
them. -/
def converse : List Command → Session σ → List (Answer × Machine) × Session σ
  | [], s => ([], s)
  | command :: rest, s =>
    let (answer, s) := s.ask command
    let (answers, s') := converse rest s
    ((answer, s.machine) :: answers, s')

/-! ## Two sessions -/

variable {kept : σ → List UInt8} {kept' : υ → List UInt8}

/-- Two sessions on reliable hosts have the same machine, and since their hosts had kept certain
bytes they have written the same. -/
structure Alike (kept : σ → List UInt8) (kept' : υ → List UInt8) (before before' : List UInt8)
    (s : Session σ) (s' : Session υ) : Prop where
  machine : s.machine = s'.machine
  reliable : Host.Reliable kept s.host
  reliable' : Host.Reliable kept' s'.host
  written : ∃ written, kept s.host = before ++ written ∧ kept' s'.host = before' ++ written

variable {before before' : List UInt8} {s : Session σ} {s' : Session υ}

/-- What two sessions come to is the same if their machines come to it by themselves. -/
theorem Alike.of_mirrors {α : Type} (h : Alike kept kept' before before' s s')
    {result : α × Session σ} {result' : α × Session υ} {plain : α × Machine × List Char}
    (hresult : Mirrors (Host.Reliable kept) kept s.host result plain)
    (hresult' : Mirrors (Host.Reliable kept') kept' s'.host result' plain) :
    result.1 = result'.1 ∧ Alike kept kept' before before' result.2 result'.2 := by
  obtain ⟨written, hwritten, hwritten'⟩ := h.written
  refine ⟨hresult.outcome_eq.trans hresult'.outcome_eq.symm,
    hresult.machine_eq.trans hresult'.machine_eq.symm, hresult.good_host, hresult'.good_host,
    written ++ plain.2.2.flatMap String.utf8EncodeChar, ?_, ?_⟩
  · rw [hresult.kept_eq, hwritten, List.append_assoc]
  · rw [hresult'.kept_eq, hwritten', List.append_assoc]

theorem advance_alike (h : Alike kept kept' before before' s s') :
    s.advance.1 = s'.advance.1 ∧ Alike kept kept' before before' s.advance.2 s'.advance.2 :=
  h.of_mirrors (advance_mirrors h.reliable) (h.machine ▸ advance_mirrors h.reliable')

theorem exec_alike (h : Alike kept kept' before before' s s') (limit : Nat) :
    (s.exec limit).1 = (s'.exec limit).1 ∧
      Alike kept kept' before before' (s.exec limit).2 (s'.exec limit).2 :=
  h.of_mirrors (exec_mirrors h.reliable limit) (h.machine ▸ exec_mirrors h.reliable' limit)

/-- Runs of the two fetch on the same machines. -/
theorem fetches_alike (h : Alike kept kept' before before' s s') (limit : Nat) :
    (s.fetches limit).map Session.machine = (s'.fetches limit).map Session.machine := by
  induction limit generalizing s s' with
  | zero => rfl
  | succ limit ih =>
    obtain ⟨houtcome, hnext⟩ := advance_alike h
    have hpoint : s.fetchPoint?.map Session.machine = s'.fetchPoint?.map Session.machine := by
      unfold fetchPoint?
      rw [h.machine]
      split
      · rfl
      · cases s'.machine.resume? <;> rfl
    rw [fetches_succ, fetches_succ, List.map_append, List.map_append, ← Option.toList_map,
      ← Option.toList_map, hpoint, houtcome]
    split
    · rw [ih hnext]
    · rfl

/-- Tracers of the two receive the same calls. -/
theorem calls_alike (h : Alike kept kept' before before' s s') (limit : Nat) :
    s.calls limit = s'.calls limit := by
  -- The calls tell what is found on the machines that fetch, and there is one way to tell it.
  have hcalls := List.forall₂_map_left_iff.mpr (s.describes_calls limit)
  have hcalls' := List.forall₂_map_left_iff.mpr (s'.describes_calls limit)
  rw [fetches_alike h limit] at hcalls
  exact Tracer.Describes.rightUnique.forall₂ hcalls hcalls'

/-- Both hosts are told of something. -/
theorem Alike.log (h : Alike kept kept' before before' s s') {m : Machine} {m' : Machine}
    (hmachine : m = m') (event event' : Log.Event) :
    Alike kept kept' before before' ⟨m, Host.log s.host event⟩ ⟨m', Host.log s'.host event'⟩ where
  machine := hmachine
  reliable := h.reliable.log event
  reliable' := h.reliable'.log event'
  written := by simpa only [h.reliable.kept_log, h.reliable'.kept_log] using h.written

/-- The two give the same answer to everything, and stay alike. -/
theorem ask_alike (h : Alike kept kept' before before' s s') (command : Command) :
    (s.ask command).1 = (s'.ask command).1 ∧
      Alike kept kept' before before' (s.ask command).2 (s'.ask command).2 := by
  cases command with
  | send text => exact ⟨rfl, h.log (congrArg (Machine.receive · text) h.machine) _ _⟩
  | exec limit =>
    obtain ⟨houtcome, hnext⟩ := exec_alike h limit
    exact ⟨congrArg Answer.ran houtcome, hnext⟩
  | execTraced limit =>
    obtain ⟨houtcome, hnext⟩ := exec_alike h limit
    have hcalls := calls_alike h limit
    simp only [ask, execTraced_eq_foldl, Tracer.foldl_receive_recorder, List.nil_append]
    exact ⟨by rw [houtcome, hcalls], hnext⟩
  | fetch =>
    obtain ⟨hresult, hnext⟩ :=
      h.of_mirrors (fetch_takes Host.Reliable.takes h.reliable)
        (h.machine ▸ fetch_takes Host.Reliable.takes h.reliable')
    exact ⟨congrArg Answer.fetched hresult, hnext⟩
  | execute i =>
    obtain ⟨hresult, hnext⟩ :=
      h.of_mirrors (execute_mirrors h.reliable i) (h.machine ▸ execute_mirrors h.reliable' i)
    exact ⟨congrArg Answer.executed hresult, hnext⟩

/-- Nothing that can be asked tells the two apart. -/
theorem converse_alike (h : Alike kept kept' before before' s s') (commands : List Command) :
    (s.converse commands).1 = (s'.converse commands).1 ∧
      Alike kept kept' before before' (s.converse commands).2 (s'.converse commands).2 := by
  induction commands generalizing s s' with
  | nil => exact ⟨rfl, h⟩
  | cons command rest ih =>
    obtain ⟨hanswer, hnext⟩ := ask_alike h command
    obtain ⟨hanswers, hlast⟩ := ih hnext
    simp only [converse, hanswer, hnext.machine, hanswers]
    exact ⟨trivial, hlast⟩

/-! ## Loads -/

/-- Two sessions that have loaded the same program are alike, whatever they were before. -/
theorem load_alike {image image' : List UInt8} (hs : Host.Reliable kept s.host)
    (hs' : Host.Reliable kept' s'.host) (fits : image.length ≤ Memory.size)
    (fits' : image'.length ≤ Memory.size) {a b : Nat}
    (h : image ++ List.replicate a 0 = image' ++ List.replicate b 0) :
    Alike kept kept' (kept s.host) (kept' s'.host) (s.load image).2 (s'.load image').2 := by
  rw [s.load_of_le fits, s'.load_of_le fits', Memory.ofImage_eq_of_zeros fits fits' h]
  -- A load is only reported to the host, with a size that may differ.
  exact {
    machine := rfl
    reliable := hs.log _
    reliable' := hs'.log _
    written := ⟨[], by simp [hs.kept_log], by simp [hs'.kept_log]⟩ }

/-- A load that fails changes nothing: neither one of a file that cannot be read nor one of an image
that does not fit in memory. Any other load succeeds and forgets the past. Two sessions with any
past that load the same image, or images that differ in zeros at the end only, on hosts on which
nothing fails, give the same answers to everything that is asked of them from then on, with the same
machine each time, and write the same bytes. -/
theorem load_atomic (s : Session σ) (s' : Session υ) (image image' : List UInt8) :
    (∀ cause, s.loadFile (.error cause) = (.error (.unreadable cause), s)) ∧
      s.loadFile (.ok image) = s.load image ∧
      (Memory.size < image.length →
        s.load image = (.error (.imageTooLarge image.length), s)) ∧
      (image.length ≤ Memory.size → (s.load image).1 = .ok ()) ∧
      ((image.length ≤ Memory.size ∧ image'.length ≤ Memory.size ∧
          ∃ a b, image ++ List.replicate a 0 = image' ++ List.replicate b 0) →
        ∀ {kept : σ → List UInt8} {kept' : υ → List UInt8}, Host.Reliable kept s.host →
        Host.Reliable kept' s'.host → ∀ commands,
        ((s.load image).2.converse commands).1 = ((s'.load image').2.converse commands).1 ∧
          ∃ written,
            kept ((s.load image).2.converse commands).2.host = kept s.host ++ written ∧
            kept' ((s'.load image').2.converse commands).2.host = kept' s'.host ++ written) := by
  refine ⟨fun _ => rfl, rfl, ?_, ?_, ?_⟩
  · intro hlong
    exact dif_neg (Nat.not_le.mpr hlong)
  · intro fits
    rw [s.load_of_le fits]
  · intro himages kept kept' hs hs' commands
    obtain ⟨fits, fits', a, b, h⟩ := himages
    obtain ⟨hanswers, halike⟩ := converse_alike (load_alike hs hs' fits fits' h) commands
    exact ⟨hanswers, halike.written⟩

/-- The program writes what it reads. It is loaded in place of one that has pushed a word and waits
for input, and zeros come with it. -/
theorem load_atomic_echo :
    let image : List UInt8 := [20, 0, 0, 128, 19, 0, 0, 128, 0, 0]
    let used := ((fresh.load [2, 0, 7, 0, 20, 0, 0, 128]).2.exec 2).2
    let commands : List Command := [.send "a", .fetch, .execTraced 2, .exec 3]
    let plain := (fresh.load image).2.converse commands
    let second := (used.load (image ++ [0, 0])).2.converse commands
    used.machine.pending = some (.register 0 0) ∧ used.machine.stack.toList = [7] ∧
      Host.Reliable Host.Bounded.bytes used.host ∧ second.1 = plain.1 ∧
      Host.Bounded.bytes second.2.host = Host.Bounded.bytes plain.2.host := by
  intro image used commands plain second
  have hused : Host.Reliable Host.Bounded.bytes used.host :=
    Host.Bounded.reliable (by decide +kernel) (by decide +kernel) (by decide +kernel)
  obtain ⟨-, -, -, -, hsame⟩ := load_atomic fresh used image (image ++ [0, 0])
  obtain ⟨hanswers, written, hplain, hsecond⟩ :=
    hsame ⟨by decide, by decide, 2, 0, rfl⟩ fresh_reliable hused commands
  refine ⟨by decide +kernel, by decide +kernel, hused, hanswers.symm, ?_⟩
  exact hsecond.trans hplain.symm

end Session

end WordVM
