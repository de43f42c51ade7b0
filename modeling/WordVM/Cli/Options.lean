import WordVM.Log

/-!
# Command line options

The command line names one program file, and may ask for a trace (`-d`, `--debug`) and set the
level of the log (`--log-level LEVEL` or `--log-level=LEVEL`). Each may be given once, in any
order. After `--` every argument is taken for a file, and so is a single `-` anywhere.
-/

namespace WordVM.Cli

/-- What the command line asks for. -/
structure Options where
  /-- The path of the program file. -/
  rom : String
  /-- Every instruction is to be traced. -/
  debug : Bool
  /-- Which log events are to be shown. -/
  filter : Log.Filter
deriving DecidableEq, Repr

/-- Why a command line is rejected. -/
inductive UsageError
  /-- No program file is named. -/
  | missingRom
  /-- This argument is not understood, or is one too many. -/
  | unexpected (argument : String)
  /-- This option is given twice. -/
  | repeated (option : String)
  /-- This argument needs a value and has none. -/
  | missingValue (argument : String)
  /-- No log level has this name. -/
  | unknownLevel (name : String)
deriving DecidableEq, Repr

/-- The text that reports a usage error. -/
def UsageError.message : UsageError → String
  | missingRom => "no program file is given"
  | unexpected argument => s!"unexpected argument {argument}"
  | repeated option => s!"{option} is given more than once"
  | missingValue argument => s!"{argument} needs a value"
  | unknownLevel name => s!"unknown log level {name}"

namespace Options

/-- What has been read of a command line so far. -/
structure Draft where
  rom? : Option String := none
  debug : Bool := false
  filter? : Option Log.Filter := none

namespace Draft

/-- Takes the path of the program file. -/
def setRom (d : Draft) (path : String) : Except UsageError Draft :=
  if path.isEmpty then .error (.missingValue "the program file")
  else if d.rom?.isSome then .error (.unexpected path)
  else .ok { d with rom? := some path }

/-- Takes the option that asks for a trace. -/
def setDebug (d : Draft) : Except UsageError Draft :=
  if d.debug then .error (.repeated "--debug") else .ok { d with debug := true }

/-- The filter that a name stands for, whatever the case of its letters. -/
def filterOfName? (name : String) : Option Log.Filter :=
  match name.map Char.toLower with
  | "off" => some .off
  | "error" => some (.upTo .error)
  | "warn" => some (.upTo .warn)
  | "info" => some (.upTo .info)
  | "debug" => some (.upTo .debug)
  | "trace" => some (.upTo .trace)
  | _ => none

/-- Takes the level of the log. -/
def setLevel (d : Draft) (name : String) : Except UsageError Draft :=
  match filterOfName? name with
  | none => .error (.unknownLevel name)
  | some filter =>
    if d.filter?.isSome then .error (.repeated "--log-level")
    else .ok { d with filter? := some filter }

/-- The options that a whole command line gives. Warnings are shown unless a level is set. -/
def finish (d : Draft) : Except UsageError Options :=
  match d.rom? with
  | none => .error .missingRom
  | some rom => .ok { rom, debug := d.debug, filter := d.filter?.getD (.upTo .warn) }

/-- Reads the arguments of a command line one after the other. -/
def read (d : Draft) : List String → Except UsageError Draft
  | [] => .ok d
  | "--" :: rest => rest.foldlM setRom d
  | "-d" :: rest | "--debug" :: rest => do (← d.setDebug).read rest
  | "--log-level" :: [] => .error (.missingValue "--log-level")
  | "--log-level" :: name :: rest => do (← d.setLevel name).read rest
  | argument :: rest =>
    match argument.dropPrefix? "--log-level=" with
    | some name => do (← d.setLevel name.toString).read rest
    | none =>
      if argument.startsWith "-" && argument != "-" then .error (.unexpected argument)
      else do (← d.setRom argument).read rest

end Draft

/-- Reads a command line, without the name of the program itself. -/
def parse (arguments : List String) : Except UsageError Options := do
  (← Draft.read {} arguments).finish

end Options

end WordVM.Cli
