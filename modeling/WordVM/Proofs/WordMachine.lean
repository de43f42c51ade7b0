import WordVM.Proofs.Step

/-!
# The machine over words

The machine as its description has it, without bytes, masks and hosts: memory is a function from
word addresses to words, the program counter counts words, an operand word is classified by the
range it lies in, and the characters written are a list. Errors tell word addresses.

Descriptions differ in two points, which a `Reading` settles: the word that a program reads for a
character, and how far the program counter moves over a word that names no opcode.
-/

namespace WordVM.WordMachine

/-- How many word addresses there are. -/
abbrev addressCount : Nat := 32767

/-- The word address from which on every instruction is a halt. -/
abbrev ceiling : Nat := 16384

/-- Why a run ended other than by halting. -/
inductive Error
  | badOperand (word : Word)
  | badOpcode (word : Word)
  | divisionByZero (p : Nat)
  | noSuchAddress (address : Nat)

/-- The state of the machine. -/
structure State where
  memory : Fin addressCount → Word
  p : Nat
  registers : Fin 8 → Word
  /-- The words on the stack, top first. -/
  stack : List Word
  halted : Bool
  error : Option Error
  input : List Char
  /-- The destination of the input instruction that waits. -/
  pending : Option Operand
  /-- The characters written so far. -/
  emitted : List Char

/-- A reading of the points that descriptions leave open. -/
structure Reading where
  /-- The word that a program reads for a character. -/
  code : Char → Word
  /-- How many words the program counter moves over a word that names no opcode. -/
  invalidWidth : Nat

namespace Reading

/-- A carriage return is a line ending like a line feed, other codes are cut to fifteen bits, and
a word that names no opcode is passed over. -/
def standard : Reading where
  code c :=
    if c = '\n' ∨ c = '\r' then 10
    else if c = ' ' then 32
    else UInt16.ofNat (c.toNat % 32768)
  invalidWidth := 1

/-- Only a line feed is a line ending, every other character stands for its code, and a word that
names no opcode changes nothing but the error. -/
def literal : Reading where
  code c := if c = '\n' then 10 else if c = ' ' then 32 else UInt16.ofNat c.toNat
  invalidWidth := 0

end Reading

/-- The operand that a word stands for, unless the word is bad. -/
def operand? (registers : Fin 8 → Word) (w : Word) : Option Operand :=
  if w.toNat ≤ 32767 then
    some (.literal w)
  else if h : w.toNat ≤ 32775 then
    have hi : w.toNat - 32768 < 8 := by omega
    some (.register ⟨w.toNat - 32768, hi⟩ (registers ⟨w.toNat - 32768, hi⟩))
  else
    none

/-- How many operands the opcode with a given number takes, if there is one. -/
def operandCount : Nat → Option Nat
  | 0 | 18 | 21 => some 0
  | 2 | 3 | 6 | 17 | 19 | 20 => some 1
  | 1 | 7 | 8 | 14 | 15 | 16 => some 2
  | 4 | 5 | 9 | 10 | 11 | 12 | 13 => some 3
  | _ => none

/-- The character with a given code. Surrogates are no characters, and U+FFFD takes their place. -/
def charOf (w : Word) : Char :=
  if 0xD800 ≤ w.toNat ∧ w.toNat ≤ 0xDFFF then '\uFFFD' else Char.ofNat w.toNat

/-- Text without the carriage returns that a line feed follows. -/
def withoutReturns : List Char → List Char
  | [] => []
  | c :: rest =>
    if c = '\r' ∧ rest.head? = some '\n' then withoutReturns rest else c :: withoutReturns rest

namespace State

/-- The machine before it runs, with the words of an image that is padded with zeros. -/
def boot (image : List UInt8) : State where
  memory a := UInt16.ofNat ((image.getD (2 * a) 0).toNat + 256 * (image.getD (2 * a + 1) 0).toNat)
  p := 0
  registers _ := 0
  stack := []
  halted := false
  error := none
  input := []
  pending := none
  emitted := []

/-- Adds text to the input. -/
def receive (s : State) (text : String) : State :=
  { s with input := s.input ++ withoutReturns text.toList }

/-- Writes a word to the register that an operand names, if it names one. -/
def assign (s : State) (dest : Operand) (w : Word) : State :=
  match dest with
  | .literal _ => s
  | .register i _ => { s with registers := fun j => if j = i then w else s.registers j }

/-- Ends the run for a reason, unless an earlier one is known. -/
def fail (s : State) (e : Error) : Outcome × State :=
  (.exit, { s with error := s.error.or (some e) })

/-- The word at an offset from the program counter, which has not reached the ceiling. -/
def wordAfter (s : State) (h : s.p < ceiling) (k : Fin 4) : Word :=
  s.memory ⟨s.p + k, by have : s.p < 16384 := h; show s.p + k < 32767; omega⟩

/-- The operand at an offset from the program counter: zero if its word is bad. -/
def operand (s : State) (h : s.p < ceiling) (k : Fin 4) : Operand :=
  (operand? s.registers (s.wordAfter h k)).getD (.literal 0)

/-- The leading bad word among the first `n` operand words. -/
def badWord? (s : State) (h : s.p < ceiling) (n : Nat) : Option Word :=
  ([s.wordAfter h 1, s.wordAfter h 2, s.wordAfter h 3].take n).find? fun w =>
    (operand? s.registers w).isNone

/-- The effect of the opcode with a given number, whose word lies at `p`, on its operands. -/
def execute (reading : Reading) (s : State) (p opcode : Nat) (a b c : Operand) : Outcome × State :=
  match opcode with
  | 0 => (.exit, { s with halted := true })
  | 1 => (.next, s.assign a b.value)
  | 2 => (.next, { s with stack := a.value :: s.stack })
  | 3 =>
    match a, s.stack with
    | .register .., top :: rest => (.next, { s with stack := rest }.assign a top)
    | _, _ => (.next, s)
  | 4 => (.next, s.assign a (if b.value.toNat = c.value.toNat then 1 else 0))
  | 5 => (.next, s.assign a (if b.value.toNat > c.value.toNat then 1 else 0))
  | 6 => (.next, { s with p := a.value.toNat })
  | 7 => (.next, if a.value.toNat = 0 then s else { s with p := b.value.toNat })
  | 8 => (.next, if a.value.toNat = 0 then { s with p := b.value.toNat } else s)
  | 9 => (.next, s.assign a (UInt16.ofNat ((b.value.toNat + c.value.toNat) % 32768)))
  | 10 => (.next, s.assign a (UInt16.ofNat (b.value.toNat * c.value.toNat % 32768)))
  | 11 =>
    match a with
    | .literal _ => (.next, s)
    | .register .. =>
      if c.value.toNat = 0 then s.fail (.divisionByZero p)
      else (.next, s.assign a (UInt16.ofNat (b.value.toNat % c.value.toNat)))
  | 12 => (.next, s.assign a (b.value &&& c.value))
  | 13 => (.next, s.assign a (b.value ||| c.value))
  | 14 => (.next, s.assign a (0x7FFF ^^^ b.value))
  | 15 =>
    match a with
    | .literal _ => (.next, s)
    | .register .. =>
      if h : b.value.toNat < addressCount then (.next, s.assign a (s.memory ⟨b.value.toNat, h⟩))
      else s.fail (.noSuchAddress b.value.toNat)
  | 16 =>
    if a.value.toNat < addressCount then
      (.next, { s with memory := fun x => if x = a.value.toNat then b.value else s.memory x })
    else s.fail (.noSuchAddress a.value.toNat)
  | 17 => (.next, { s with stack := UInt16.ofNat s.p :: s.stack, p := a.value.toNat })
  | 18 =>
    match s.stack with
    | [] => (.exit, { s with halted := true })
    | top :: rest => (.next, { s with stack := rest, p := top.toNat })
  | 19 => (.next, { s with emitted := s.emitted ++ [charOf a.value] })
  | 20 =>
    match s.input with
    | [] => (.needInput, { s with pending := some a })
    | c :: rest => (.next, { s with input := rest }.assign a (reading.code c))
  | _ => (.next, s)

/-- One fetch and one execution. A bad operand word is an error, and the instruction is executed
all the same. -/
def cycle (reading : Reading) (s : State) : Outcome × State :=
  if h : s.p < ceiling then
    let opcode := s.wordAfter h 0
    match operandCount opcode.toNat with
    | none => { s with p := s.p + reading.invalidWidth }.fail (.badOpcode opcode)
    | some n =>
      let error := s.error.or ((s.badWord? h n).map .badOperand)
      { s with p := s.p + 1 + n, error }.execute reading s.p opcode.toNat
        (s.operand h 1) (s.operand h 2) (s.operand h 3)
  else
    (.exit, { s with halted := true })

/-- One step: nothing once the machine has halted or failed, and otherwise a cycle, after the
input instruction that waits, if there is one and a character for it. -/
def step (reading : Reading) (s : State) : Outcome × State :=
  if s.halted || s.error.isSome then
    (.exit, s)
  else
    match s.pending, s.input with
    | none, _ => s.cycle reading
    | some _, [] => (.needInput, s)
    | some dest, c :: rest =>
      ({ s with pending := none, input := rest }.assign dest (reading.code c)).cycle reading

end State

/-- The outcomes of the steps among some actions, and the machine after all of them. -/
def State.replay (reading : Reading) : List Session.Action → State → List Outcome × State
  | [], s => ([], s)
  | .send text :: rest, s => replay reading rest (s.receive text)
  | .step :: rest, s =>
    let (outcome, s) := s.step reading
    let (outcomes, s) := replay reading rest s
    (outcome :: outcomes, s)

end WordVM.WordMachine
