import WordVM.Proofs.History

/-!
# The program counter

Jumps, calls and returns give the program counter the byte offset of a word address, and between
them it moves by whole words below the program ceiling. So it is always the byte offset of a word
address (`Machine.Placed`), whatever a session is used for (`Session.placed_invariant`). The largest
one is that of the word address 65535, from which no instruction is read.
-/

namespace WordVM

/-- The program counter is the byte offset of a word address. -/
structure Machine.Placed (m : Machine) : Prop where
  even : m.pc % 2 = 0
  le : m.pc ≤ 131070

namespace Machine

variable {m m' : Machine}

@[simp] theorem store_pc (m : Machine) (dest : Operand) (w : Word) :
    (m.store dest w).pc = m.pc := by
  cases dest <;> rfl

/-- The completion of an input instruction does not move the program counter. -/
theorem resume?_pc (h : m.resume? = some m') : m'.pc = m.pc := by
  obtain ⟨-, h'⟩ | ⟨_, -, -, h'⟩ | ⟨_, _, _, -, -, h'⟩ := m.resume?_cases <;> rw [h'] at h <;>
    cases h
  · rfl
  · exact store_pc ..

/-- An instruction leaves the program counter behind itself or moves it to a word address. -/
theorem perform_pc (m : Machine) (i : Instruction) :
    (m.perform i).1.pc = m.pc ∨ ∃ w, (m.perform i).1.pc = Word.byteOffset w := by
  obtain ⟨pc, op, o⟩ := i
  cases op
  case input =>
    -- The character comes with a machine of its own, which differs in its input only.
    simp only [perform]
    rcases htake : m.takeInput? with _ | ⟨w, m'⟩
    · exact .inl rfl
    · obtain ⟨_, _, -, -, rfl⟩ := takeInput?_eq_some htake
      exact .inl (store_pc ..)
  all_goals grind [perform, store_pc, jump, Operand.byteOffset]

namespace Placed

theorem of_pc_eq (h : m.Placed) (hpc : m'.pc = m.pc) : m'.Placed :=
  ⟨hpc ▸ h.even, hpc ▸ h.le⟩

theorem of_byteOffset {w : Word} (hpc : m.pc = Word.byteOffset w) : m.Placed := by
  have := w.toNat_lt
  rw [Word.byteOffset] at hpc
  exact ⟨by omega, by omega⟩

theorem boot (memory : Memory) : (boot memory).Placed := ⟨rfl, Nat.zero_le _⟩

theorem perform (h : m.Placed) (i : Instruction) : (m.perform i).1.Placed := by
  obtain hpc | ⟨w, hpc⟩ := m.perform_pc i
  · exact h.of_pc_eq hpc
  · exact .of_byteOffset hpc

/-- A fetch moves past words that begin below the ceiling, or does not move. -/
theorem fetch (h : m.Placed) : m.fetch.2.Placed := by
  have heven := h.even
  obtain ⟨-, hfetch⟩ | ⟨_, hlt, -, -, hfetch⟩ | ⟨op, hlt, -, hfetch⟩ := m.fetch_cases <;>
    rw [hfetch]
  · exact h
  · have hpc : m.pc < 0x8000 := hlt
    exact ⟨by show (m.pc + 2) % 2 = 0; omega, by show m.pc + 2 ≤ 131070; omega⟩
  · have hpc : m.pc < 0x8000 := hlt
    have harity := op.arity_le
    have hwidth : op.width = 2 * (1 + op.arity) := rfl
    constructor <;> dsimp only <;> omega

theorem resume (h : m.Placed) (hresume : m.resume? = some m') : m'.Placed :=
  h.of_pc_eq (resume?_pc hresume)

end Placed

end Machine

namespace Session

variable {σ : Type} [Host σ]

theorem execute_placed {s : Session σ} (h : s.machine.Placed) (i : Instruction) :
    (s.execute i).2.machine.Placed := by
  have hperformed := h.perform i
  rcases hperform : s.machine.perform i with ⟨m, effect⟩
  rw [hperform] at hperformed
  obtain ⟨host, ⟨-, f, h'⟩ | ⟨-, h'⟩ | ⟨-, h'⟩ | ⟨-, h'⟩⟩ := execute_of_perform hperform <;> rw [h']
  · exact hperformed.of_pc_eq rfl
  · exact hperformed
  · exact hperformed
  · exact hperformed

theorem placed_invariant : Invariant fun s : Session σ => s.machine.Placed where
  send _ h := h.of_pc_eq rfl
  fetch {s} h := by rw [fetch_machine]; exact h.fetch
  execute i h := execute_placed h i
  awaitInput {s} h := by
    obtain ⟨host, h'⟩ | ⟨_, host, h'⟩ := s.awaitInput_cases <;> rw [h']
    · exact h
    · exact h.of_pc_eq rfl
  resume hresume h := h.resume hresume

theorem load_placed {s : Session σ} (h : s.machine.Placed) (image : List UInt8) :
    (s.load image).2.machine.Placed := by
  unfold load
  split
  · exact .boot _
  · exact h

theorem Usage.perform_placed {u : Usage σ} (h : u.session.machine.Placed) (operation : Operation) :
    (u.perform operation).session.machine.Placed :=
  perform_invariant placed_invariant (fun _ image h => load_placed h image) h

theorem Usage.replay_placed {u : Usage σ} (h : u.session.machine.Placed)
    (operations : List Operation) : (u.replay operations).session.machine.Placed := by
  induction operations generalizing u with
  | nil => exact h
  | cons operation rest ih => exact ih (perform_placed h operation)

end Session

end WordVM
