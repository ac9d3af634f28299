import ShaderPack.Writer.Basic

namespace ShaderPack

/-!
# Scripted writers

A writer whose behaviour is written down in advance: it may interrupt once, take bytes in
chunks, and fail or go on taking nothing after a number of bytes.
-/

/-- The behaviour of a scripted writer. -/
structure Script where
  /-- The first write is interrupted. -/
  interrupt : Bool := false
  /-- The most bytes it takes altogether. -/
  limit : Option Nat := none
  /-- The most bytes it takes at a time. -/
  chunk : Option Nat := none
  /-- At its limit it takes nothing, instead of failing. -/
  zero : Bool := false
  /-- The reason of its failures. -/
  reason : String := "read-only"
  /-- It fails to pass on what it holds. -/
  flushFails : Bool := false
  deriving DecidableEq, Repr

namespace Script

/-- What a scripted writer remembers. -/
structure State where
  /-- The interruption is still to come. -/
  interrupting : Bool
  /-- Bytes taken so far. -/
  taken : Nat := 0
  deriving DecidableEq, Repr

/-- The state before the first write. -/
def start (script : Script) : State := { interrupting := script.interrupt }

/-- Bytes that may still be taken, if there is a bound, in one write. -/
def room? (script : Script) (s : State) : Option Nat :=
  match script.limit, script.chunk with
  | some limit, some chunk => some (min (limit - s.taken) chunk)
  | some limit, none => some (limit - s.taken)
  | none, chunk => chunk

/-- Whether the limit is reached. -/
def isFull (script : Script) (s : State) : Bool :=
  script.limit.any (· ≤ s.taken)

/-- One write. -/
def write (script : Script) (s : State) (bytes : Bytes) : Answer × State :=
  if s.interrupting then (.interrupted, { s with interrupting := false })
  else if script.isFull s && !bytes.isEmpty then
    -- only a write of some bytes notices that the writer is full
    (if script.zero then .accepted 0 else .failed script.reason, s)
  else
    let count := match script.room? s with
      | some room => (bytes.take room).length
      | none => bytes.length
    (.accepted count, { s with taken := s.taken + count })

/-- Passing on what is held. -/
def flush (script : Script) (s : State) : Option String × State :=
  (if script.flushFails then some script.reason else none, s)

/-- The writer of a script. -/
def writer (script : Script) : Writer State where
  write := script.write
  flush := script.flush
  patience s := if s.interrupting then 1 else 0
  patience_lt {s bytes s'} h := by
    cases hi : s.interrupting with
    | true =>
      simp only [write, hi, if_true, Prod.mk.injEq, true_and] at h
      simp [← h]
    | false =>
      simp only [write, hi, Bool.false_eq_true, if_false] at h
      split at h
      · split at h <;> simp at h
      · simp at h

end Script

end ShaderPack
