import WordVM.Text.Hex
import WordVM.Word

/-!
# Faults

A fault ends a run. The machine keeps the first one; `Fault.message` is how it is reported.
-/

namespace WordVM

/-- Why a run ended other than by halting. -/
inductive Fault
  /-- An operand word names neither a value nor a register. -/
  | invalidNumber (word : Word)
  /-- A word in opcode position names no opcode. -/
  | invalidOpcode (word : Word)
  /-- A remainder by zero was asked for by the instruction at this byte offset. -/
  | divideByZero (pc : Nat)
  /-- A word at this byte offset does not lie within memory. -/
  | addressOutOfRange (offset : Nat)
  /-- The host refused output, for the reason it gives. -/
  | output (reason : String)
deriving DecidableEq, Repr

/-- The text that reports a fault. -/
def Fault.message : Fault → String
  | .invalidNumber word => s!"invalid number {word}"
  | .invalidOpcode word => s!"invalid opcode {word}"
  | .divideByZero pc => s!"modulo by zero at {Text.hexOffset pc}"
  | .addressOutOfRange offset => s!"address {Text.hexOffset offset} is outside of memory"
  | .output reason => s!"unable to write output: {reason}"

end WordVM
