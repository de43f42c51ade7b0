import WordVM.Log

/-!
# Hosts

A host is what the machine writes to. It takes bytes, as many at a time as it likes, flushes what
it holds back, and hears of log events. Writes and flushes may fail, with a reason in words.

`Host.writeAll` offers bytes again and again until the host has taken all of them, or refuses, or
takes nothing.
-/

namespace WordVM

/-- The operations of a host with states of type `σ`. Each gives the state after it. -/
class Host (σ : Type) where
  /-- Offers bytes. The answer is how many of them the host took, from the front. -/
  write : σ → List UInt8 → Except String Nat × σ
  /-- Asks the host to pass on what it holds back. -/
  flush : σ → Except String Unit × σ
  /-- Reports an event. -/
  log : σ → Log.Event → σ

namespace Host

variable {σ : Type} [Host σ]

/-- Writes the bytes that remain after the first `taken`, which the host took before. -/
def writeRest (host : σ) : (taken : Nat) → List UInt8 → Except String Unit × σ
  | _, [] => (.ok (), host)
  | taken + 1, _ :: rest => writeRest host taken rest
  | 0, b :: rest =>
    match write host (b :: rest) with
    | (.ok 0, host) => (.error "failed to write whole buffer", host)
    | (.ok (n + 1), host) => writeRest host n rest
    | (.error reason, host) => (.error reason, host)

/-- Writes all of the bytes, unless the host refuses or takes nothing. -/
def writeAll (host : σ) (bytes : List UInt8) : Except String Unit × σ :=
  writeRest host 0 bytes

end Host

end WordVM
