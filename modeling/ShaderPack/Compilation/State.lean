namespace ShaderPack.Compilation

/-!
# States of a compilation

A compilation goes through the states from `start` to `serialized` in order; from each of
them but the first it may go to `failed`, where it ends.
-/

/-- How far a compilation has come. -/
inductive State
  | start
  | dialectSelected
  | optimized
  | modernized
  | scanned
  | serialized
  | failed
  deriving DecidableEq, Repr

/-- The name of a state in the journal. -/
def State.name : State → String
  | .start => "Start"
  | .dialectSelected => "DialectSelected"
  | .optimized => "Optimized"
  | .modernized => "Rewritten"
  | .scanned => "Scanned"
  | .serialized => "Serialized"
  | .failed => "Failed"

end ShaderPack.Compilation
