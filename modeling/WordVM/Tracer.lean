import WordVM.Instruction
import WordVM.Stack

/-!
# Tracers

A tracer watches a run. It is called once for every instruction, after it is read and before it is
performed, and once for a word that should have been an opcode and is none.
-/

namespace WordVM

/-- An observer of a run with states of type `τ`. -/
structure Tracer (τ : Type) where
  /-- An instruction is about to be performed. -/
  instruction : τ → Instruction → Registers → Stack → τ
  /-- The word at this byte offset names no opcode, and the run is about to end. -/
  invalid : τ → (pc : Nat) → (word : Word) → Registers → Stack → τ := fun t _ _ _ _ => t

/-- A tracer that takes no notice of anything. -/
def Tracer.silent {τ : Type} : Tracer τ where
  instruction t _ _ _ := t

end WordVM
