import WordVM.Cli.Trace
import WordVM.Proofs.Text.Filling
import WordVM.Proofs.Text.Reading
import WordVM.Proofs.Tracing

/-!
# Reading the debug trace back

What the debug trace prints for a call is a line that tells what was found (`Trace.head`), and after
it the registers and the stack on filled lines. Both can be read back, and each says where it ends:
the first line at its line feed (`Trace.head_inj`), the registers and the stack at the brackets
behind their lists, wherever the filling broke the lines (`Trace.state_append_inj`).

So blocks that stand one after the other can be told apart (`Trace.block_append_inj`), and two runs
of which the same text is printed have made the same calls. This is `Trace.tracer_lossless`, which
also bounds the lines.
-/

namespace WordVM

namespace Opcode

/-- The opcode with a given short name, if there is one. -/
def ofMnemonic? (name : String) : Option Opcode :=
  ((List.range 22).filterMap fun code => ofCode? (.ofNat code)).find? fun op => op.mnemonic == name

theorem ofMnemonic?_mnemonic (op : Opcode) : ofMnemonic? op.mnemonic = some op := by
  cases op <;> decide

theorem mnemonic_inj {op op' : Opcode} (h : op.mnemonic = op'.mnemonic) : op = op' := by
  apply Option.some.inj
  rw [← ofMnemonic?_mnemonic, h, ofMnemonic?_mnemonic]

theorem all_isUpper_mnemonic (op : Opcode) : op.mnemonic.toList.all Char.isUpper = true := by
  cases op <;> decide

theorem notMem_mnemonic {c : Char} (h : c.isUpper = false) (op : Opcode) :
    c ∉ op.mnemonic.toList :=
  fun hc => by simp [List.all_eq_true.mp op.all_isUpper_mnemonic c hc] at h

end Opcode

namespace Tracer.Call

/-- The registers that a call tells. -/
def registers : Call → Registers
  | .instruction _ registers _ => registers
  | .invalid _ _ registers _ => registers

/-- The stack that a call tells. -/
def stack : Call → Stack
  | .instruction _ _ stack => stack
  | .invalid _ _ _ stack => stack

/-- A call that the debug trace shows: all but those for output instructions. -/
def Shown : Call → Prop
  | .instruction i _ _ => i.opcode ≠ .out
  | .invalid .. => True

end Tracer.Call

namespace Cli.Trace

open Text

/-! ## Operands -/

theorem toList_operand_register (index : Fin registerCount) (value : Word) :
    (operand (.register index value)).toList = "Register #".toList ++
      ((toString index).toList ++ ' ' :: '-' :: ' ' :: (toString value).toList) := by
  show ("Register #" ++ toString index ++ " - " ++ toString value).toList = _
  simp only [String.toList_append, List.append_assoc]
  rfl

theorem all_isDigit_index : ∀ index : Fin registerCount,
    (toString index).toList.all Char.isDigit = true := by
  decide

theorem index_inj : ∀ index index' : Fin registerCount, toString index = toString index' →
    index = index' := by
  decide

theorem mem_operand {o : Operand} {c : Char} (h : c ∈ (operand o).toList) :
    c.isDigit = true ∨ c ∈ "Register #- ".toList := by
  cases o with
  | literal value => exact .inl (isDigit_of_mem_toString h)
  | register index value =>
    rw [toList_operand_register] at h
    simp only [List.mem_append, List.mem_cons] at h
    obtain h | h | rfl | rfl | rfl | h := h
    · exact .inr (List.mem_append_left ['-', ' '] h)
    · exact .inl (List.all_eq_true.mp (all_isDigit_index index) c h)
    · exact .inr (by decide)
    · exact .inr (by decide)
    · exact .inr (by decide)
    · exact .inl (isDigit_of_mem_toString h)

theorem notMem_operand {c : Char} (hdigit : c.isDigit = false) (hc : c ∉ "Register #- ".toList)
    (o : Operand) : c ∉ (operand o).toList := by
  intro h
  obtain h | h := mem_operand h
  · simp [h] at hdigit
  · exact hc h

theorem isItem_operand (o : Operand) : IsItem (operand o) := by
  constructor
  · cases o with
    | literal value => exact (isItem_toString value).1
    | register index value =>
      rw [ne_eq, ← String.toList_eq_nil_iff, toList_operand_register]
      exact List.cons_ne_nil _ _
  · rintro c hc (rfl | rfl)
    · exact notMem_operand rfl (by decide) o hc
    · exact notMem_operand rfl (by decide) o hc

/-- A register is told from a literal by its first letter, which is no digit. -/
theorem operand_literal_ne_register (value value' : Word) (index : Fin registerCount) :
    operand (.literal value) ≠ operand (.register index value') := by
  intro h
  have hmem : 'R' ∈ (operand (.register index value')).toList := by
    rw [toList_operand_register]
    exact List.mem_cons_self
  rw [← h] at hmem
  exact notMem_toString rfl value hmem

theorem operand_inj {o o' : Operand} (h : operand o = operand o') : o = o' := by
  cases o with
  | literal value =>
    cases o' with
    | literal value' => exact congrArg Operand.literal (toString_inj h)
    | register index' value' => exact absurd h (operand_literal_ne_register _ _ _)
  | register index value =>
    cases o' with
    | literal value' => exact absurd h.symm (operand_literal_ne_register _ _ _)
    | register index' value' =>
      have hspace (i : Fin registerCount) : ' ' ∉ (toString i).toList :=
        fun hc => by simpa using List.all_eq_true.mp (all_isDigit_index i) ' ' hc
      have htext := congrArg String.toList h
      rw [toList_operand_register, toList_operand_register] at htext
      obtain ⟨hindex, hvalue⟩ :=
        append_stop_inj (hspace index) (hspace index') (List.append_cancel_left htext)
      rw [index_inj _ _ (String.toList_inj.mp hindex)]
      simp only [List.cons.injEq, true_and] at hvalue
      rw [toString_inj (String.toList_inj.mp hvalue)]

/-! ## The first line of a block -/

/-- The line that tells what was found. -/
def head : Tracer.Call → String
  | .instruction i _ _ => describe i
  | .invalid pc word _ _ => s!"{hexOffset pc} invalid opcode {word}"

theorem toList_describe (i : Instruction) :
    (describe i).toList = (hexOffset i.pc).toList ++
      ' ' :: (i.opcode.mnemonic.toList ++ ' ' :: listed (i.operands.toList.map operand)) := by
  rw [describe, listed]
  show (hexOffset i.pc ++ " " ++ i.opcode.mnemonic ++ " [" ++ _ ++ "]").toList = _
  simp only [String.toList_append, List.append_assoc]
  rfl

theorem toList_head_invalid (pc : Nat) (word : Word) (registers : Registers) (stack : Stack) :
    (head (.invalid pc word registers stack)).toList = (hexOffset pc).toList ++
      ' ' :: ("invalid".toList ++ ' ' :: ("opcode ".toList ++ (toString word).toList)) := by
  show (hexOffset pc ++ " invalid opcode " ++ toString word).toList = _
  simp only [String.toList_append, List.append_assoc]
  rfl

theorem notMem_describe (i : Instruction) : '\n' ∉ (describe i).toList := by
  have hoperands : ∀ item ∈ i.operands.toList.map operand, '\n' ∉ item.toList := by
    intro item hitem
    obtain ⟨o, -, rfl⟩ := List.mem_map.mp hitem
    exact notMem_operand rfl (by decide) o
  simp only [toList_describe, List.mem_append, List.mem_cons, not_or]
  exact ⟨notMem_hexOffset rfl i.pc, by decide, i.opcode.notMem_mnemonic rfl, by decide,
    notMem_listed (by decide) (by decide) hoperands⟩

theorem notMem_head (call : Tracer.Call) : '\n' ∉ (head call).toList := by
  cases call with
  | instruction i registers stack => exact notMem_describe i
  | invalid pc word registers stack =>
    simp only [toList_head_invalid, List.mem_append, List.mem_cons, not_or]
    exact ⟨notMem_hexOffset rfl pc, by decide, by decide, by decide, by decide,
      notMem_toString rfl word⟩

theorem describe_inj {i i' : Instruction} (h : describe i = describe i') : i = i' := by
  have htext := congrArg String.toList h
  rw [toList_describe, toList_describe] at htext
  obtain ⟨hpc, htext⟩ := hexOffset_append_inj htext
  obtain ⟨hopcode, htext⟩ :=
    append_stop_inj (i.opcode.notMem_mnemonic rfl) (i'.opcode.notMem_mnemonic rfl) htext
  obtain ⟨hoperands, -⟩ := listed_map_append_inj isItem_operand (fun _ _ => operand_inj)
    (congrArg (fun text => text ++ []) htext)
  -- The operands are vectors of one type only after the opcodes are known to be the same.
  obtain ⟨pc, opcode, operands⟩ := i
  obtain ⟨pc', opcode', operands'⟩ := i'
  obtain rfl : pc = pc' := hpc
  obtain rfl : opcode = opcode' := Opcode.mnemonic_inj (String.toList_inj.mp hopcode)
  obtain rfl : operands = operands' := Vector.toList_inj.mp hoperands
  rfl

/-- The short names are in upper case, so none of them is the "invalid" of the other line. -/
theorem describe_ne_invalid (i : Instruction) (pc : Nat) (word : Word) (registers : Registers)
    (stack : Stack) : describe i ≠ head (.invalid pc word registers stack) := by
  intro h
  have htext := congrArg String.toList h
  rw [toList_describe, toList_head_invalid] at htext
  obtain ⟨-, htext⟩ := hexOffset_append_inj htext
  obtain ⟨hname, -⟩ := append_stop_inj (i.opcode.notMem_mnemonic rfl) (by decide) htext
  have hi : 'i' ∉ i.opcode.mnemonic.toList := i.opcode.notMem_mnemonic rfl
  rw [hname] at hi
  exact hi List.mem_cons_self

theorem invalid_inj {pc pc' : Nat} {word word' : Word} {registers registers' : Registers}
    {stack stack' : Stack}
    (h : head (.invalid pc word registers stack) = head (.invalid pc' word' registers' stack')) :
    pc = pc' ∧ word = word' := by
  have htext := congrArg String.toList h
  rw [toList_head_invalid, toList_head_invalid] at htext
  obtain ⟨hpc, htext⟩ := hexOffset_append_inj htext
  have hword := List.append_cancel_left htext
  simp only [List.cons.injEq, true_and] at hword
  exact ⟨hpc, toString_inj (String.toList_inj.mp (List.append_cancel_left hword))⟩

/-- A call is told by its first line, its registers and its stack. -/
theorem head_inj {call call' : Tracer.Call} (hhead : head call = head call')
    (hregisters : call.registers = call'.registers) (hstack : call.stack = call'.stack) :
    call = call' := by
  cases call with
  | instruction i registers stack =>
    cases call' with
    | instruction i' registers' stack' =>
      obtain rfl := describe_inj hhead
      obtain rfl : registers = registers' := hregisters
      obtain rfl : stack = stack' := hstack
      rfl
    | invalid pc' word' registers' stack' => exact absurd hhead (describe_ne_invalid _ _ _ _ _)
  | invalid pc word registers stack =>
    cases call' with
    | instruction i' registers' stack' =>
      exact absurd hhead.symm (describe_ne_invalid _ _ _ _ _)
    | invalid pc' word' registers' stack' =>
      obtain ⟨rfl, rfl⟩ := invalid_inj hhead
      obtain rfl : registers = registers' := hregisters
      obtain rfl : stack = stack' := hstack
      rfl

/-! ## Registers and stack -/

theorem items_cons_cons (item next : String) (more : List String) :
    items (item :: next :: more) = (item ++ ",") :: items (next :: more) := rfl

theorem mem_items {item word : String} {rest : List String} (h : word ∈ items (item :: rest)) :
    ∃ text ∈ item :: rest, ∃ behind ∈ [",", "]"], word = text ++ behind := by
  induction rest generalizing item with
  | nil => exact ⟨item, List.mem_cons_self, "]", by decide, List.mem_singleton.mp h⟩
  | cons next more ih =>
    rw [items_cons_cons, List.mem_cons] at h
    obtain rfl | h := h
    · exact ⟨item, List.mem_cons_self, ",", by decide, rfl⟩
    · obtain ⟨text, htext, hword⟩ := ih h
      exact ⟨text, List.mem_cons_of_mem _ htext, hword⟩

/-- A word of a list is a number with the marks around it. -/
theorem mem_bracketed {word : String} {words : List Word} (h : word ∈ bracketed words) :
    word = "[]" ∨ ∃ w : Word, ∃ before ∈ ["", "["], ∃ behind ∈ [",", "]"],
      word = before ++ toString w ++ behind := by
  cases words with
  | nil => exact .inl (List.mem_singleton.mp h)
  | cons first rest =>
    obtain ⟨text, htext, behind, hbehind, rfl⟩ := mem_items h
    obtain rfl | htext := List.mem_cons.mp htext
    · exact .inr ⟨first, "[", by decide, behind, hbehind, rfl⟩
    · obtain ⟨w, -, rfl⟩ := List.mem_map.mp htext
      exact .inr ⟨w, "", by decide, behind, hbehind, by rw [String.empty_append]⟩

theorem length_of_mem_bracketed {word : String} {words : List Word} (h : word ∈ bracketed words) :
    word.length ≤ 7 := by
  have hmark : ∀ mark ∈ ["", "[", ",", "]"], mark.length ≤ 1 := by decide
  obtain rfl | ⟨w, before, hbefore, behind, hbehind, rfl⟩ := mem_bracketed h
  · decide
  · have hw := length_toString_le w
    have hbefore := hmark before (List.mem_append_left [",", "]"] hbefore)
    have hbehind := hmark behind (List.mem_append_right ["", "["] hbehind)
    rw [String.length_append, String.length_append]
    omega

theorem unbroken_bracketed (words : List Word) : Unbroken (bracketed words) := by
  intro word hword
  have hmark : ∀ mark ∈ ["", "[", ",", "]"], '\n' ∉ mark.toList := by decide
  obtain rfl | ⟨w, before, hbefore, behind, hbehind, rfl⟩ := mem_bracketed hword
  · decide
  · simp only [String.toList_append, List.mem_append, not_or]
    exact ⟨⟨hmark before (List.mem_append_left [",", "]"] hbefore), notMem_toString rfl w⟩,
      hmark behind (List.mem_append_right ["", "["] hbehind)⟩

theorem spaced_items (item : String) (rest : List String) :
    spaced (items (item :: rest)) = item.toList ++ closing rest ++ [' '] := by
  induction rest generalizing item with
  | nil => simp [items, spaced, closing]
  | cons next more ih =>
    rw [items_cons_cons, spaced_cons, ih, closing]
    simp

/-- The words of a list, with the spaces behind them, are the list. -/
theorem spaced_bracketed (words : List Word) :
    spaced (bracketed words) = listed (words.map toString) ++ [' '] := by
  cases words with
  | nil => rfl
  | cons first rest =>
    have hitems : bracketed (first :: rest) =
        items (("[" ++ toString first) :: rest.map toString) := rfl
    rw [hitems, spaced_items, String.toList_append, List.map_cons, listed_cons]
    rfl

theorem unbroken_titled {title : String} (htitle : '\n' ∉ title.toList) (words : List Word) :
    Unbroken (title :: bracketed words) :=
  List.forall_mem_cons.mpr ⟨htitle, unbroken_bracketed words⟩

/-- A title and a list, filled and with the line feeds put back as spaces. -/
theorem rejoin_filled {title : String} (htitle : '\n' ∉ title.toList) (words : List Word) :
    rejoin (unlines (fill width (title :: bracketed words))).toList =
      title.toList ++ ' ' :: (listed (words.map toString) ++ [' ']) := by
  rw [rejoin_fill (unbroken_titled htitle words), spaced_cons, spaced_bracketed]

theorem toList_state (registers : Registers) (stack : Stack) :
    (state registers stack).toList =
      (unlines (fill width ("Registers:" :: bracketed registers.toList))).toList ++
        ((unlines (fill width ("Stack:" :: bracketed stack.toList))).toList ++ ['\n']) := by
  rw [state, String.toList_append, String.toList_append, List.append_assoc]
  rfl

theorem rejoin_state (registers : Registers) (stack : Stack) :
    rejoin (state registers stack).toList =
      "Registers: ".toList ++ (listed (registers.toList.map toString) ++
        (" Stack: ".toList ++ (listed (stack.toList.map toString) ++ [' ', ' ']))) := by
  rw [toList_state, rejoin_append, rejoin_append, rejoin_filled (by decide),
    rejoin_filled (by decide)]
  simp [rejoin]

/-- The registers and the stack are told by their text, whatever follows. -/
theorem state_append_inj {registers registers' : Registers} {stack stack' : Stack}
    {s t : List Char}
    (h : (state registers stack).toList ++ s = (state registers' stack').toList ++ t) :
    registers = registers' ∧ stack = stack' ∧ s = t := by
  -- The lists are read off the rejoined text. What follows them is not, since it may have line
  -- feeds of its own.
  have htext := congrArg rejoin h
  rw [rejoin_append, rejoin_append, rejoin_state, rejoin_state] at htext
  simp only [List.append_assoc] at htext
  obtain ⟨hregisters, htext⟩ := listed_map_append_inj isItem_toString (fun _ _ => toString_inj)
    (List.append_cancel_left htext)
  obtain ⟨hstack, -⟩ := listed_map_append_inj isItem_toString (fun _ _ => toString_inj)
    (List.append_cancel_left htext)
  obtain rfl : registers = registers' := Vector.toList_inj.mp hregisters
  obtain ⟨words⟩ := stack
  obtain ⟨words'⟩ := stack'
  obtain rfl : words = words' := List.reverse_inj.mp hstack
  exact ⟨rfl, rfl, List.append_cancel_left h⟩

/-- A title and a list keep to the width. -/
theorem length_of_mem_filled {title : String} (htitle : title.length ≤ width) (words : List Word) :
    ∀ line ∈ fill width (title :: bracketed words), (" ".intercalate line).length ≤ width := by
  refine length_of_mem_fill (List.forall_mem_cons.mpr ⟨htitle, ?_⟩)
  intro word hword
  have hlength := length_of_mem_bracketed hword
  have hwidth : width = 80 := rfl
  omega

theorem length_of_mem_state (registers : Registers) (stack : Stack) :
    ∀ line ∈ (state registers stack).toList.splitOn '\n', line.length ≤ width := by
  -- Behind the filled lines there is an empty line, and nothing behind its line feed.
  have hlast : ['\n'].splitOn '\n' = [[], []] := rfl
  rw [toList_state, splitOn_unlines (unbroken_of_mem_fill (unbroken_titled (by decide) _)),
    splitOn_unlines (unbroken_of_mem_fill (unbroken_titled (by decide) _)), hlast]
  intro line hline
  simp only [List.mem_append, List.mem_map, List.mem_cons, List.not_mem_nil, or_false] at hline
  obtain ⟨filled, hfilled, rfl⟩ | ⟨filled, hfilled, rfl⟩ | rfl | rfl := hline
  · rw [String.length_toList]
    exact length_of_mem_filled (by decide) _ filled hfilled
  · rw [String.length_toList]
    exact length_of_mem_filled (by decide) _ filled hfilled
  · exact Nat.zero_le width
  · exact Nat.zero_le width

/-! ## Blocks and runs -/

/-- What the trace shows for a call. -/
def block (call : Tracer.Call) : String :=
  head call ++ "\n" ++ state call.registers call.stack

theorem receive_eq (text : String) {call : Tracer.Call} (h : call.Shown) :
    tracer.receive text call = text ++ block call := by
  cases call with
  | instruction i registers stack =>
    show text ++ instruction i registers stack = _
    rw [instruction, if_neg h]
    rfl
  | invalid pc word registers stack => rfl

theorem toList_block (call : Tracer.Call) :
    (block call).toList =
      (head call).toList ++ '\n' :: (state call.registers call.stack).toList := by
  rw [block, String.toList_append, String.toList_append, List.append_assoc]
  rfl

/-- A call is told by its block, whatever follows. -/
theorem block_append_inj {call call' : Tracer.Call} {s t : List Char}
    (h : (block call).toList ++ s = (block call').toList ++ t) : call = call' ∧ s = t := by
  rw [toList_block, toList_block, List.append_assoc, List.append_assoc, List.cons_append,
    List.cons_append] at h
  obtain ⟨hhead, hstate⟩ := append_stop_inj (notMem_head call) (notMem_head call') h
  obtain ⟨hregisters, hstack, hrest⟩ := state_append_inj hstate
  exact ⟨head_inj (String.toList_inj.mp hhead) hregisters hstack, hrest⟩

theorem toList_foldl_receive {calls : List Tracer.Call} (h : ∀ call ∈ calls, call.Shown)
    (text : String) :
    (calls.foldl tracer.receive text).toList =
      text.toList ++ calls.flatMap fun call => (block call).toList := by
  induction calls generalizing text with
  | nil => simp
  | cons call rest ih =>
    rw [List.forall_mem_cons] at h
    rw [List.foldl_cons, ih h.2, receive_eq text h.1, String.toList_append, List.append_assoc,
      List.flatMap_cons]

theorem flatMap_block_inj {calls calls' : List Tracer.Call}
    (h : (calls.flatMap fun call => (block call).toList) =
      calls'.flatMap fun call => (block call).toList) : calls = calls' := by
  -- A block is not empty, so a run that has come to its end is told from one that goes on.
  have hne (call : Tracer.Call) (rest : List Char) : [] ≠ (block call).toList ++ rest := by
    simp [toList_block]
  induction calls generalizing calls' with
  | nil =>
    cases calls' with
    | nil => rfl
    | cons call' rest' => exact absurd h (hne call' _)
  | cons call rest ih =>
    cases calls' with
    | nil => exact absurd h.symm (hne call _)
    | cons call' rest' =>
      obtain ⟨rfl, hrest⟩ := block_append_inj h
      rw [ih hrest]

/-- The trace loses nothing: calls that it shows, however many of them, are told in full by the text
that is printed. Each of them adds one line that tells what was found, and then the registers and
the stack on lines of at most eighty columns. -/
theorem tracer_lossless :
    (∀ calls calls' : List Tracer.Call, (∀ call ∈ calls, call.Shown) →
      (∀ call ∈ calls', call.Shown) →
      calls.foldl tracer.receive "" = calls'.foldl tracer.receive "" → calls = calls') ∧
    (∀ (text : String) (call : Tracer.Call), call.Shown →
      tracer.receive text call =
        text ++ (head call ++ "\n" ++ state call.registers call.stack) ∧
      '\n' ∉ (head call).toList ∧
      ∀ line ∈ (state call.registers call.stack).toList.splitOn '\n', line.length ≤ 80) := by
  refine ⟨fun calls calls' h h' heq => ?_, fun text call hshown => ?_⟩
  · have htext := congrArg String.toList heq
    rw [toList_foldl_receive h, toList_foldl_receive h'] at htext
    exact flatMap_block_inj (List.append_cancel_left htext)
  · exact ⟨receive_eq text hshown, notMem_head call,
      length_of_mem_state call.registers call.stack⟩

/-- Stacks whose words have the same digits in the same order are told apart. -/
theorem tracer_lossless_sameDigits :
    let call (stack : Stack) := Tracer.Call.invalid 2 99 (Vector.replicate 8 0) stack
    [call ⟨[23, 1]⟩].foldl tracer.receive "" ≠ [call ⟨[3, 12]⟩].foldl tracer.receive "" ∧
    [call ((Stack.empty.push 1).push 23)] = [call ⟨[23, 1]⟩] ∧
    ∀ line ∈ (state (Vector.replicate 8 0) ⟨[23, 1]⟩).toList.splitOn '\n', line.length ≤ 80 := by
  intro call
  obtain ⟨hlossless, hlines⟩ := tracer_lossless
  have hshown (stack : Stack) : ∀ c ∈ [call stack], c.Shown := by
    rintro c hc
    obtain rfl := List.mem_singleton.mp hc
    trivial
  refine ⟨fun heq => ?_, hlossless _ _ (hshown _) (hshown _) rfl, ?_⟩
  · have hcalls := hlossless _ _ (hshown _) (hshown _) heq
    simp [call] at hcalls
  · exact (hlines "" (call ⟨[23, 1]⟩) trivial).2.2

end Cli.Trace

end WordVM
