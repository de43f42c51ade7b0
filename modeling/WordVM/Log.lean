import WordVM.Fault
import WordVM.Opcode

/-!
# Log events

The machine reports what it does as events. Each has a level, the part of the machine it comes
from, and a text; a filter admits the events up to some level.
-/

namespace WordVM.Log

/-- How important an event is. -/
inductive Level
  | error
  | warn
  | info
  | debug
  | trace
deriving DecidableEq, Repr

namespace Level

/-- The place of a level in the order of decreasing importance. -/
def rank : Level → Nat
  | error => 1
  | warn => 2
  | info => 3
  | debug => 4
  | trace => 5

/-- The name of a level as log lines show it. -/
def name : Level → String
  | error => "ERROR"
  | warn => "WARN"
  | info => "INFO"
  | debug => "DEBUG"
  | trace => "TRACE"

end Level

/-- Which events are shown. -/
inductive Filter
  /-- None at all. -/
  | off
  /-- Those that are at least as important as a level. -/
  | upTo (level : Level)
deriving DecidableEq, Repr

/-- The filter lets events of a level through. -/
def Filter.admits : Filter → Level → Bool
  | off, _ => false
  | upTo limit, level => level.rank ≤ limit.rank

/-- Something worth reporting. -/
inductive Event
  /-- An image of this many bytes is about to replace memory. -/
  | imageLoaded (size : Nat)
  /-- Text of this many characters has arrived. -/
  | inputReceived (length : Nat)
  /-- An opcode has been read at a byte offset. -/
  | fetched (op : Opcode) (pc : Nat)
  /-- The first fault of a run has occurred, with the program counter at this byte offset. -/
  | stopping (pc : Nat) (fault : Fault)
deriving DecidableEq, Repr

namespace Event

/-- The importance of an event. -/
def level : Event → Level
  | imageLoaded _ => .debug
  | inputReceived _ => .debug
  | fetched .. => .trace
  | stopping .. => .warn

/-- The part of the machine that an event comes from. -/
def target : Event → String
  | imageLoaded _ => "smachine::smemory"
  | inputReceived _ | fetched .. | stopping .. => "smachine::smachine"

/-- The text of an event. -/
def message : Event → String
  | imageLoaded size => s!"resetting memory, image is {size} bytes"
  | inputReceived length => s!"received {length} chars of input"
  | fetched op pc => s!"fetched {op.mnemonic} at {Text.hexOffset pc}"
  | stopping pc fault => s!"stopping at {Text.hexOffset pc}: {fault.message}"

end Event

end WordVM.Log
