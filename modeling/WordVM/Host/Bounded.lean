import WordVM.Host

/-!
# Bounded hosts

A host that keeps the bytes it takes, up to a limit in all and up to a limit at a time, and whose
flushes fail after a number of them. Without these limits it takes everything.
-/

namespace WordVM.Host

/-- What a bounded host does with a write once it can take nothing. -/
inductive WhenFull
  /-- It takes no byte of it. -/
  | takeNothing
  /-- It reports an error. -/
  | refuse
deriving DecidableEq, Repr

/-- A host with limits, and what it has taken so far. -/
structure Bounded where
  /-- How many bytes it takes in all, if that is limited. -/
  capacity : Option Nat := none
  /-- How many bytes it takes at a time, if that is limited. -/
  chunk : Option Nat := none
  /-- What it does when it can take nothing. -/
  whenFull : WhenFull := .takeNothing
  /-- How many flushes succeed, if that is limited. -/
  flushLimit : Option Nat := none
  /-- The bytes taken so far. -/
  kept : Array UInt8 := #[]
  /-- How many flushes have succeeded. -/
  flushes : Nat := 0
  /-- The events heard of so far. -/
  events : Array Log.Event := #[]

namespace Bounded

/-- How many of `n` bytes the host takes now. -/
def room (host : Bounded) (n : Nat) : Nat :=
  let n := host.capacity.elim n fun capacity => min n (capacity - host.kept.size)
  host.chunk.elim n fun chunk => min n chunk

/-- Takes as many of the bytes as there is room for. -/
def write (host : Bounded) (bytes : List UInt8) : Except String Nat × Bounded :=
  match host.room bytes.length, host.whenFull with
  | 0, .takeNothing => (.ok 0, host)
  | 0, .refuse => (.error "sink full", host)
  | n, _ => (.ok n, { host with kept := host.kept ++ bytes.take n })

/-- Counts a flush, or fails if there have been as many as the host allows. -/
def flush (host : Bounded) : Except String Unit × Bounded :=
  if host.flushLimit.any (· ≤ host.flushes) then
    (.error "flush refused", host)
  else
    (.ok (), { host with flushes := host.flushes + 1 })

instance : Host Bounded where
  write := write
  flush := flush
  log host event := { host with events := host.events.push event }

end Bounded

end WordVM.Host
