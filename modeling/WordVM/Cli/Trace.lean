import WordVM.Text.Fill
import WordVM.Tracer

/-!
# The debug trace

Every traced instruction is shown by a block of text: the instruction, the registers, the stack
and an empty line. The lists of registers and of stack words are filled to eighty columns. Output
instructions are not shown, so that the trace of a program does not drown what it prints.
-/

namespace WordVM.Cli.Trace

/-- The width that the lists of registers and stack words are filled to. -/
def width : Nat := 80

/-- An operand as the trace shows it. -/
def operand : Operand → String
  | .literal value => s!"{value}"
  | .register index value => s!"Register #{index} - {value}"

/-- An instruction as the trace shows it. -/
def describe (i : Instruction) : String :=
  let operands := ", ".intercalate (i.operands.toList.map operand)
  s!"{Text.hexOffset i.pc} {i.opcode.mnemonic} [{operands}]"

/-- The items of a list that has been opened: a comma follows each but the last, which the closing
bracket follows. -/
def items : List String → List String
  | [] => ["]"]
  | [item] => [item ++ "]"]
  | item :: rest => (item ++ ",") :: items rest

/-- A list of numbers in brackets, as words that stand one after the other. -/
def bracketed (words : List Word) : List String :=
  match words.map toString with
  | [] => ["[]"]
  | item :: rest => items (("[" ++ item) :: rest)

/-- The registers and the stack, and the empty line that ends a block. -/
def state (registers : Registers) (stack : Stack) : String :=
  Text.unlines (Text.fill width ("Registers:" :: bracketed registers.toList)) ++
    Text.unlines (Text.fill width ("Stack:" :: bracketed stack.toList)) ++ "\n"

/-- The block for an instruction that is about to be performed. -/
def instruction (i : Instruction) (registers : Registers) (stack : Stack) : String :=
  if i.opcode = .out then "" else s!"{describe i}\n{state registers stack}"

/-- The block for a word that names no opcode. -/
def invalid (pc : Nat) (word : Word) (registers : Registers) (stack : Stack) : String :=
  s!"{Text.hexOffset pc} invalid opcode {word}\n{state registers stack}"

/-- Adds the blocks of a run to a text. -/
def tracer : Tracer String where
  instruction text i registers stack := text ++ instruction i registers stack
  invalid text pc word registers stack := text ++ invalid pc word registers stack

end WordVM.Cli.Trace
