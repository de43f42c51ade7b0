import WordVM.Host
import WordVM.LoadError
import WordVM.Machine
import WordVM.Tracer

/-!
# Sessions

A session is a machine together with the host it writes to. Its operations are the ones that a
user of the machine has: load a program, send input, fetch and execute a single instruction, or
execute until the run ends or waits for input.

Nothing bounds a run, so the operations that run on take a limit on the number of steps. Running
with a limit that is reached answers `next`; any other answer would have come with every higher
limit too.

Only the first fault after a load is kept. It is logged when it occurs, with the program counter
as it then is.
-/

namespace WordVM

/-- How a step ended. -/
inductive Outcome
  /-- The next instruction can follow. -/
  | next
  /-- The machine waits for input. -/
  | needInput
  /-- The run is over. -/
  | exit
deriving DecidableEq, Repr

/-- A machine and its host. -/
structure Session (σ : Type) where
  machine : Machine
  host : σ

namespace Session

variable {σ τ : Type} [Host σ]

/-- Replaces memory with a program image and starts afresh. An image that does not fit changes
nothing. -/
def load (s : Session σ) (image : List UInt8) : Except LoadError Unit × Session σ :=
  if fits : image.length ≤ Memory.size then
    (.ok (), ⟨.boot (.ofImage image fits), Host.log s.host (.imageLoaded image.length)⟩)
  else
    (.error (.imageTooLarge image.length), s)

/-- Loads a program image from what reading its file gave. -/
def loadFile (s : Session σ) : Except FileError (List UInt8) → Except LoadError Unit × Session σ
  | .ok image => s.load image
  | .error cause => (.error (.unreadable cause), s)

/-- Adds text to the machine's input. -/
def sendInput (s : Session σ) (text : String) : Session σ :=
  ⟨s.machine.receive text, Host.log s.host (.inputReceived text.length)⟩

/-- Records a fault and logs it, unless an earlier one is recorded. -/
def fail (s : Session σ) (f : Fault) : Session σ :=
  match s.machine.fault with
  | some _ => s
  | none => ⟨{ s.machine with fault := some f }, Host.log s.host (.stopping s.machine.pc f)⟩

/-- Reads the instruction at the program counter and moves past it. A bad operand is recorded and
the instruction given all the same; a word that names no opcode is recorded and given as the
fault. -/
def fetch (s : Session σ) : Except Fault Instruction × Session σ :=
  let ⟨machine, host⟩ := s
  match machine.peek with
  | .pastCeiling => (.ok (.halt machine.pc), ⟨machine, host⟩)
  | .invalid word =>
    (.error (.invalidOpcode word),
      fail ⟨{ machine with pc := machine.pc + 2 }, host⟩ (.invalidOpcode word))
  | .instruction i fault? =>
    let host := Host.log host (.fetched i.opcode machine.pc)
    let s : Session σ := ⟨{ machine with pc := machine.pc + i.opcode.width }, host⟩
    match fault? with
    | none => (.ok i, s)
    | some f => (.ok i, s.fail f)

/-- Flushes the host, so that all output is out before the machine waits for input. -/
def awaitInput (s : Session σ) : Except Fault Outcome × Session σ :=
  match Host.flush s.host with
  | (.ok (), host) => (.ok .needInput, ⟨s.machine, host⟩)
  | (.error reason, host) => (.error (.output reason), fail ⟨s.machine, host⟩ (.output reason))

/-- Performs an instruction. A fault is recorded and given. -/
def execute (s : Session σ) (i : Instruction) : Except Fault Outcome × Session σ :=
  let ⟨machine, host⟩ := s
  match machine.perform i with
  | (machine, .next) => (.ok .next, ⟨machine, host⟩)
  | (machine, .exit) => (.ok .exit, ⟨machine, host⟩)
  | (machine, .fault f) => (.error f, fail ⟨machine, host⟩ f)
  | (machine, .emit c) =>
    match Host.writeAll host (String.utf8EncodeChar c) with
    | (.ok (), host) => (.ok .next, ⟨machine, host⟩)
    | (.error reason, host) => (.error (.output reason), fail ⟨machine, host⟩ (.output reason))
  | (machine, .await) => awaitInput ⟨machine, host⟩

/-- Executes an instruction within a run, which a fault ends. The tracer has seen the instruction
before and stays as it is. -/
def executeSeen (s : Session σ) (i : Instruction) (t : τ) : Outcome × Session σ × τ :=
  match s.execute i with
  | (.ok outcome, s) => (outcome, s, t)
  | (.error _, s) => (.exit, s, t)

/-- Fetches and executes one instruction, which the tracer sees in between. -/
def cycle (tracer : Tracer τ) (s : Session σ) (t : τ) : Outcome × Session σ × τ :=
  match s.fetch with
  | (.ok i, s) =>
    s.executeSeen i (tracer.instruction t i s.machine.registers s.machine.stack)
  | (.error (.invalidOpcode word), s) =>
    (.exit, s, tracer.invalid t (s.machine.pc - 2) word s.machine.registers s.machine.stack)
  | (.error _, s) => (.exit, s, t)

/-- One step of a run. A run that is over stays as it is. An input instruction that waits is
completed first, if there is input for it now. -/
def step (tracer : Tracer τ) (s : Session σ) (t : τ) : Outcome × Session σ × τ :=
  if s.machine.stopped then
    (.exit, s, t)
  else
    match s.machine.pending with
    | none => s.cycle tracer t
    | some dest =>
      match s.machine.takeInput? with
      | some (w, machine) =>
        let machine := { machine with pending := none }
        cycle tracer ⟨machine.store dest w, s.host⟩ t
      | none =>
        match s.awaitInput with
        | (.ok outcome, s) => (outcome, s, t)
        | (.error _, s) => (.exit, s, t)

/-- Runs under a tracer until the run ends or waits for input, for at most `limit` steps. -/
def execTraced (tracer : Tracer τ) : (limit : Nat) → Session σ → τ → Outcome × Session σ × τ
  | 0, s, t => (.next, s, t)
  | limit + 1, s, t =>
    match s.step tracer t with
    | (.next, s, t) => execTraced tracer limit s t
    | result => result

/-- Runs until the run ends or waits for input, for at most `limit` steps. -/
def exec (limit : Nat) (s : Session σ) : Outcome × Session σ :=
  let (outcome, s, _) := execTraced .silent limit s ()
  (outcome, s)

/-- Why stepping by hand came to an end. -/
inductive Stop
  /-- The limit was reached. -/
  | limit
  /-- Fetching or executing gave a fault. -/
  | fault (f : Fault)
  /-- The last instruction ended like this, or a fault was recorded beside it. -/
  | outcome (o : Outcome)
deriving DecidableEq, Repr

/-- Fetches and executes by hand, for at most `limit` instructions, until a fault is given or
recorded or the outcome is other than `next`. The answer also counts the instructions fetched,
beyond the first `ran`. -/
def runFrom (ran : Nat) : (limit : Nat) → Session σ → (Stop × Nat) × Session σ
  | 0, s => ((.limit, ran), s)
  | limit + 1, s =>
    match s.fetch with
    | (.error f, s) => ((.fault f, ran), s)
    | (.ok i, s) =>
      match s.execute i with
      | (.error f, s) => ((.fault f, ran + 1), s)
      | (.ok .next, s) =>
        if s.machine.fault.isNone then runFrom (ran + 1) limit s
        else ((.outcome .next, ran + 1), s)
      | (.ok outcome, s) => ((.outcome outcome, ran + 1), s)

/-- Fetches and executes by hand, for at most `limit` instructions. -/
def run (limit : Nat) (s : Session σ) : (Stop × Nat) × Session σ := runFrom 0 limit s

end Session

end WordVM
