import WordVM.Cli.Console
import WordVM.Cli.Options
import WordVM.Cli.Trace
import WordVM.Session

/-!
# Running a program from the command line

A run loads the program file and executes it to the end. Whenever the machine waits, it is given
the next line of standard input, with its line ending. The report of a run is its exit code and
what it wrote.
-/

namespace WordVM.Cli

/-- Why a run from the command line failed. -/
inductive RunError
  /-- The program file was not loaded. -/
  | unableToLoad (rom : String) (cause : LoadError)
  /-- The machine recorded a fault. -/
  | fault (f : Fault)
  /-- The machine waited for input after the end of standard input. -/
  | inputClosed
  /-- A line of standard input is not text. -/
  | invalidText
deriving DecidableEq, Repr

namespace RunError

/-- What went wrong, in one line. -/
def message : RunError → String
  | unableToLoad rom _ => s!"unable to load rom {rom}"
  | fault f => f.message
  | inputClosed => "input closed while the program was waiting for it"
  | invalidText => "stream did not contain valid UTF-8"

/-- What lies behind it, if that is something else. -/
def cause? : RunError → Option String
  | unableToLoad _ cause => some cause.message
  | fault _ | inputClosed | invalidText => none

/-- The text that reports a failed run. -/
def report (e : RunError) : String :=
  match e.cause? with
  | none => s!"Error: {e.message}\n"
  | some cause => s!"Error: {e.message}\n\nCaused by:\n    {cause}\n"

end RunError

/-- Where a run stands after some steps. -/
inductive Turn
  /-- It can go on. -/
  | running
  /-- It waits for a line of input. -/
  | waiting
  /-- It is over, and went well or failed. -/
  | finished (result : Except RunError Unit)

variable {σ τ : Type} [Host σ]

/-- Where a run stands whose last step had the given outcome. -/
def turn (outcome : Outcome) (s : Session σ) : Turn :=
  match outcome with
  | .next => .running
  | .needInput => .waiting
  | .exit =>
    match s.machine.fault with
    | some f => .finished (.error (.fault f))
    | none => .finished (.ok ())

/-- Gives a line of standard input to the machine. -/
def feed (line : List UInt8) (s : Session σ) : Except RunError (Session σ) :=
  match String.fromUTF8? ⟨line.toArray⟩ with
  | some text => .ok (s.sendInput text)
  | none => .error .invalidText

/-- Runs to the end on the given lines of standard input, with at most `limit` steps for each of
them. There is no result if the limit is reached. -/
def drive (tracer : Tracer τ) (limit : Nat) :
    List (List UInt8) → Session σ → τ → Option (Except RunError Unit) × Session σ × τ
  | lines, s, t =>
    let (outcome, s, t) := s.execTraced tracer limit t
    match turn outcome s with
    | .running => (none, s, t)
    | .finished result => (some result, s, t)
    | .waiting =>
      match lines with
      | [] => (some (.error .inputClosed), s, t)
      | line :: rest =>
        match feed line s with
        | .ok s => drive tracer limit rest s t
        | .error e => (some (.error e), s, t)

/-- What a run leaves behind. -/
structure Report where
  /-- The exit code. -/
  code : UInt32
  /-- The bytes of standard output. -/
  stdout : Array UInt8
  /-- The text of standard error. -/
  stderr : String

/-- The report of a command line that is rejected. -/
def Report.rejected (e : UsageError) : Report := ⟨2, #[], s!"error: {e.message}\n"⟩

/-- The report of a run with a given result. A failure is reported after all else. -/
def Report.ofResult (result : Except RunError Unit) (stdout : Array UInt8) (stderr : String) :
    Report :=
  match result with
  | .ok () => ⟨0, stdout, stderr⟩
  | .error e => ⟨1, stdout, stderr ++ e.report⟩

/-- The session that a command line begins with. -/
def start (options : Options) (stamp : String) : Session Console :=
  ⟨.initial, { filter := options.filter, stamp }⟩

/-- Loads the program file that the options name. -/
def load (options : Options) (file : Except FileError (List UInt8)) (s : Session Console) :
    Except RunError Unit × Session Console :=
  match s.loadFile file with
  | (.ok (), s) => (.ok (), s)
  | (.error cause, s) => (.error (.unableToLoad options.rom cause), s)

/-- The tracer that the options ask for. -/
def tracer (options : Options) : Tracer String :=
  if options.debug then Trace.tracer else .silent

/-- Runs a command line on the whole of standard input, with at most `limit` steps for each of its
lines. There is no report if the limit is reached. -/
def run (limit : Nat) (files : String → Except FileError (List UInt8)) (stamp : String)
    (arguments : List String) (stdin : List UInt8) : Option Report :=
  match Options.parse arguments with
  | .error e => some (.rejected e)
  | .ok options =>
    match load options (files options.rom) (start options stamp) with
    | (.error e, s) => some (.ofResult (.error e) s.host.stdout "")
    | (.ok (), s) =>
      match drive (tracer options) limit (Input.lines stdin) s "" with
      | (some result, s, trace) => some (.ofResult result s.host.stdout trace)
      | (none, _, _) => none

end WordVM.Cli
