import WordVM.Proofs.Host.Journal
import WordVM.Proofs.Tracing

/-!
# Histories

A user of a session loads programs, sends input, lets it run, fetches, and executes instructions
that have been seen before, in any order. `Session.Usage.replay` is what comes of such a sequence
of operations. A user sees an instruction when it is fetched, and also when a run shows it to a
tracer, and may execute it at any time after that: with another program loaded, or when the machine
has halted.

A property that holds after all that a session can do at once (`Session.Invariant`) holds after
whole runs (`Invariant.exec`) and histories (`Usage.perform_invariant`).
-/

namespace WordVM

/-- The instruction that a call shows, if it shows one. -/
def Tracer.Call.instruction? : Tracer.Call → Option Instruction
  | .instruction i _ _ => some i
  | .invalid .. => none

namespace Session

/-- A use of one of the operations of a session. A run comes with a limit on its steps, and comes
to its end if the limit is high enough. -/
inductive Operation
  /-- Loads a program image. -/
  | load (image : List UInt8)
  /-- Loads a program image from what reading its file gave. -/
  | loadFile (file : Except FileError (List UInt8))
  /-- Sends text to the machine. -/
  | send (text : String)
  /-- Runs without a tracer. -/
  | exec (limit : Nat)
  /-- Runs under a tracer, which keeps the instructions that it is shown. -/
  | execTraced (limit : Nat)
  /-- Fetches an instruction. -/
  | fetch
  /-- Executes the instruction with this number among those seen so far, if there is one. -/
  | execute (k : Nat)

/-- The operation loads a program, and does not fail. -/
def Operation.reloads : Operation → Bool
  | .load image | .loadFile (.ok image) => image.length ≤ Memory.size
  | _ => false

/-! ## Invariants -/

/-- A property of sessions that is preserved by all that a session does, loading aside. -/
structure Invariant {σ : Type} [Host σ] (P : Session σ → Prop) : Prop where
  send : ∀ {s} (text), P s → P (s.sendInput text)
  fetch : ∀ {s}, P s → P s.fetch.2
  execute : ∀ {s} (i), P s → P (s.execute i).2
  awaitInput : ∀ {s}, P s → P s.awaitInput.2
  resume : ∀ {s m}, s.machine.resume? = some m → P s → P ⟨m, s.host⟩

namespace Invariant

variable {σ : Type} [Host σ] {P : Session σ → Prop}

theorem runOne (h : Invariant P) {s : Session σ} (hs : P s) : P s.runOne.2 := by
  have hfetched := h.fetch hs
  unfold Session.runOne
  rcases hfetch : s.fetch with ⟨_ | i, s₁⟩ <;> rw [hfetch] at hfetched
  · exact hfetched
  · have hexecuted := h.execute i hfetched
    dsimp only at hexecuted ⊢
    rcases hexecute : s₁.execute i with ⟨_ | _, s₂⟩ <;> rw [hexecute] at hexecuted <;>
      exact hexecuted

theorem advance (h : Invariant P) {s : Session σ} (hs : P s) : P s.advance.2 := by
  unfold Session.advance
  split
  · exact hs
  -- With the input instruction completed, the step is a cycle. Otherwise it waits again.
  · cases hresume : s.machine.resume? with
    | some m => exact h.runOne (h.resume hresume hs)
    | none =>
      have hawait := h.awaitInput hs
      dsimp only
      rcases hresult : s.awaitInput with ⟨_ | _, s'⟩ <;> rw [hresult] at hawait <;> exact hawait

/-- What each part of a step preserves, a run preserves. -/
theorem exec (h : Invariant P) (limit : Nat) {s : Session σ} (hs : P s) :
    P (s.exec limit).2 := by
  induction limit generalizing s with
  | zero => exact hs
  | succ limit ih =>
    have hstep := h.advance hs
    rw [exec_succ]
    rcases hadvance : s.advance with ⟨_ | _ | _, s'⟩ <;> rw [hadvance] at hstep
    · exact ih hstep
    · exact hstep
    · exact hstep

end Invariant

/-! ## Use of a session -/

/-- A session in use, and the instructions that its user has seen. -/
structure Usage (σ : Type) where
  session : Session σ
  seen : List Instruction

namespace Usage

variable {σ υ : Type}

/-- A session that has never been loaded, and no instruction seen. -/
def start (host : σ) : Usage σ := ⟨⟨.initial, host⟩, []⟩

/-- The same machine on another host. -/
def map (φ : σ → υ) (u : Usage σ) : Usage υ := ⟨u.session.map φ, u.seen⟩

variable [Host σ] [Host υ]

/-- Uses an operation of a session. -/
def perform (u : Usage σ) : Operation → Usage σ
  | .load image => { u with session := (u.session.load image).2 }
  | .loadFile file => { u with session := (u.session.loadFile file).2 }
  | .send text => { u with session := u.session.sendInput text }
  | .exec limit => { u with session := (u.session.exec limit).2 }
  | .execTraced limit =>
    let (_, session, calls) := Session.execTraced .recorder limit u.session []
    ⟨session, u.seen ++ calls.filterMap Tracer.Call.instruction?⟩
  | .fetch =>
    match u.session.fetch with
    | (.ok i, session) => ⟨session, u.seen ++ [i]⟩
    | (.error _, session) => { u with session }
  | .execute k =>
    match u.seen[k]? with
    | some i => { u with session := (u.session.execute i).2 }
    | none => u

/-- Uses operations one after the other. -/
def replay (operations : List Operation) (u : Usage σ) : Usage σ := operations.foldl perform u

@[simp] theorem replay_nil (u : Usage σ) : u.replay [] = u := rfl

@[simp] theorem replay_cons (operation : Operation) (rest : List Operation) (u : Usage σ) :
    u.replay (operation :: rest) = (u.perform operation).replay rest := rfl

theorem perform_map {φ : σ → υ} (h : Host.Hom φ) (u : Usage σ) (operation : Operation) :
    (u.map φ).perform operation = (u.perform operation).map φ := by
  obtain ⟨s, seen⟩ := u
  cases operation with
  | load image => simp only [perform, map, load_map h]
  | loadFile file => simp only [perform, map, loadFile_map h]
  | send text => simp only [perform, map, sendInput_map h]
  | exec limit => simp only [perform, map, exec_map h]
  | execTraced limit => simp only [perform, map, execTraced_map h]
  | fetch =>
    simp only [perform, map, fetch_map h]
    rcases s.fetch with ⟨_ | _, _⟩ <;> rfl
  | execute k =>
    simp only [perform, map]
    cases seen[k]? with
    | none => rfl
    | some i => simp only [execute_map h]

/-- An operation preserves an invariant, if it does not load a program or the loading preserves the
invariant as well. -/
theorem perform_invariant {P : Session σ → Prop} (h : Invariant P) {u : Usage σ}
    {operation : Operation}
    (hload : operation.reloads = true → ∀ image, P u.session → P (u.session.load image).2)
    (hu : P u.session) : P (u.perform operation).session := by
  have hloaded {image : List UInt8}
      (hreloads : operation.reloads = decide (image.length ≤ Memory.size)) :
      P (u.session.load image).2 := by
    by_cases himage : image.length ≤ Memory.size
    · exact hload (by simp [hreloads, himage]) image hu
    -- An image that does not fit changes nothing.
    · simpa only [load, dif_neg himage] using hu
  cases operation with
  | load image => exact hloaded rfl
  | loadFile file =>
    cases file with
    | ok image => exact hloaded rfl
    | error cause => exact hu
  | send text => exact h.send text hu
  | exec limit => exact h.exec limit hu
  | execTraced limit =>
    have hsame := execTraced_eq_exec .recorder limit u.session []
    have hrun := h.exec limit hu
    rw [← hsame] at hrun
    exact hrun
  | fetch =>
    have hfetched := h.fetch hu
    simp only [perform]
    rcases hfetch : u.session.fetch with ⟨_ | i, s⟩ <;> rw [hfetch] at hfetched <;> exact hfetched
  | execute k =>
    simp only [perform]
    cases u.seen[k]? with
    | none => exact hu
    | some i => exact h.execute i hu

/-- A history goes along with a map of hosts. -/
theorem replay_map {φ : σ → υ} (h : Host.Hom φ) (operations : List Operation) (u : Usage σ) :
    (u.map φ).replay operations = (u.replay operations).map φ := by
  induction operations generalizing u with
  | nil => rfl
  | cons operation rest ih => rw [replay_cons, replay_cons, perform_map h, ih]

end Usage

end Session

end WordVM
