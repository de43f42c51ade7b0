import WordVM.Host

/-!
# The console

The console collects what goes to standard output: the program's bytes and, between them, a line
for every log event that the filter admits.
-/

namespace WordVM.Cli

/-- What has gone to standard output, and how log events are shown there. -/
structure Console where
  /-- Which log events are shown. -/
  filter : Log.Filter
  /-- The time that log lines carry. -/
  stamp : String
  /-- The bytes of standard output. -/
  stdout : Array UInt8 := #[]

namespace Console

/-- The line for a log event. The level is padded to five columns. -/
def logLine (stamp : String) (event : Log.Event) : String :=
  let level := String.ofList (event.level.name.toList.rightpad 5 ' ')
  s!"{stamp} {level} [{event.target}] {event.message}\n"

/-- Adds bytes to standard output. -/
def put (console : Console) (bytes : List UInt8) : Console :=
  { console with stdout := console.stdout ++ bytes }

instance : Host Console where
  write console bytes := (.ok bytes.length, console.put bytes)
  flush console := (.ok (), console)
  log console event :=
    if console.filter.admits event.level then
      console.put (logLine console.stamp event).toUTF8.data.toList
    else
      console

end Console

end WordVM.Cli
