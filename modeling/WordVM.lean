import WordVM.BitField
import WordVM.Word
import WordVM.Text.Hex
import WordVM.Fault
import WordVM.LoadError
import WordVM.Opcode
import WordVM.Operand
import WordVM.Memory
import WordVM.Stack
import WordVM.Instruction
import WordVM.Input
import WordVM.Log
import WordVM.Host
import WordVM.Host.Bounded
import WordVM.Machine
import WordVM.Tracer
import WordVM.Session
import WordVM.Text.Fill
import WordVM.Cli.Options
import WordVM.Cli.Trace
import WordVM.Cli.Console
import WordVM.Cli.Run
import WordVM.Proofs.BitField
import WordVM.Proofs.Step
import WordVM.Proofs.Host.Reliable
import WordVM.Proofs.WordMachine
import WordVM.Proofs.Refinement
import WordVM.Proofs.Waiting
import WordVM.Proofs.Input
import WordVM.Proofs.Feed
import WordVM.Proofs.Delivery
import WordVM.Proofs.Cli.Drive
import WordVM.Proofs.Frame
import WordVM.Proofs.Stepping
import WordVM.Proofs.Tracing
import WordVM.Proofs.History
import WordVM.Proofs.Checked
import WordVM.Proofs.FirstFault
import WordVM.Proofs.Safety
import WordVM.Proofs.ProgramCounter
import WordVM.Proofs.Encoding
import WordVM.Proofs.Execution
import WordVM.Proofs.ValueRange
import WordVM.Proofs.UpperHalf
import WordVM.Proofs.Host.Limited
import WordVM.Proofs.Output
import WordVM.Proofs.CallReturn
import WordVM.Proofs.InputFlow
import WordVM.Proofs.Reload
import WordVM.Proofs.Host.Transfer
import WordVM.Proofs.Failing
import WordVM.Proofs.Prompt
import WordVM.Proofs.RunEnd
import WordVM.Proofs.BadOperand
import WordVM.Proofs.Fetching
import WordVM.Proofs.Snapshot
import WordVM.Proofs.Forward
import WordVM.Proofs.WordStore
import WordVM.Proofs.Partition
import WordVM.Proofs.Arithmetic
import WordVM.Proofs.LineEndings
import WordVM.Proofs.Text.Filling
import WordVM.Proofs.Text.Reading
import WordVM.Proofs.Cli.TraceText
import WordVM.Proofs.Cli.TraceText
