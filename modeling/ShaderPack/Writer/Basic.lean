import ShaderPack.Bytes

namespace ShaderPack

/-!
# Writers

A writer takes bytes a few at a time and may be interrupted or fail.  `writeAll` hands it
bytes until it has accepted them all: after an interruption the same bytes are handed over
again, and a writer that accepts nothing has failed.  A writer may not be interrupted
forever, which `patience` bounds.
-/

/-- What a writer says to the bytes it is handed. -/
inductive Answer
  /-- It has taken this many of them, from the first on. -/
  | accepted (count : Nat)
  | interrupted
  | failed (reason : String)
  deriving DecidableEq, Repr

/-- A destination of bytes with a state of its own. -/
structure Writer (σ : Type) where
  write : σ → Bytes → Answer × σ
  /-- Passes on what the writer still holds; a failure has a reason. -/
  flush : σ → Option String × σ
  /-- How often the writer may still be interrupted before it takes something or fails. -/
  patience : σ → Nat
  patience_lt : ∀ {s bytes s'}, write s bytes = (.interrupted, s') → patience s' < patience s

/-- What became of bytes for a writer: those it accepted, the failure that stopped it, and
    its state. -/
structure Delivery (σ : Type) where
  accepted : Bytes
  failure : Option String
  state : σ

namespace Writer

variable {σ : Type}

/-- Hands bytes to a writer until it has accepted them all or fails. -/
def writeAll (w : Writer σ) (s : σ) (bytes : Bytes) : Delivery σ :=
  if bytes = [] then ⟨[], none, s⟩
  else match h : w.write s bytes with
    | (.interrupted, s') =>
      -- nothing was taken, so the same bytes are handed over again
      have := w.patience_lt h
      w.writeAll s' bytes
    | (.failed reason, s') => ⟨[], some reason, s'⟩
    -- a writer that takes nothing would never come to an end
    | (.accepted 0, s') => ⟨[], some "failed to write whole buffer", s'⟩
    | (.accepted (n + 1), s') =>
      let rest := w.writeAll s' (bytes.drop (n + 1))
      { rest with accepted := bytes.take (n + 1) ++ rest.accepted }
termination_by (bytes.length, w.patience s)
decreasing_by
  · exact Prod.Lex.right _ this
  · apply Prod.Lex.left
    have : bytes.length ≠ 0 := by simpa using ‹bytes ≠ []›
    simp only [List.length_drop]
    omega

/-- Hands bytes to a writer and, once it has accepted them all, has it pass them on. -/
def writeAndFlush (w : Writer σ) (s : σ) (bytes : Bytes) : Delivery σ :=
  let d := w.writeAll s bytes
  match d.failure with
  | some _ => d
  | none =>
    let (failure, s') := w.flush d.state
    { d with failure, state := s' }

/-- Hands several pieces to a writer, one after another; none follows a failure. -/
def writeEach (w : Writer σ) (s : σ) : List Bytes → Delivery σ
  | [] => ⟨[], none, s⟩
  | piece :: pieces =>
    let first := w.writeAll s piece
    match first.failure with
    | some _ => first
    | none =>
      let rest := w.writeEach first.state pieces
      { rest with accepted := first.accepted ++ rest.accepted }

end Writer

end ShaderPack
