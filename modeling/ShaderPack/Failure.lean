namespace ShaderPack

/-!
# Failures of a compilation

What a caller learns when no packed shader comes out, or when bytes are no packed shader.
The parts of the library that can fail have their own causes; their wording ends up here.
-/

/-- A failure, by the part of the work that failed. -/
inductive Failure
  /-- The optimizer refused the source; line and column are 0 when its log names none. -/
  | rejected (line column : UInt32) (log : String)
  /-- A declaration cannot be read. -/
  | malformed (cause : String)
  /-- The packed shader cannot be made or written. -/
  | unwritten (cause : String)
  /-- Bytes are no packed shader. -/
  | invalid (cause : String)
  deriving DecidableEq, Repr

/-- The wording of a failure. -/
def Failure.message : Failure → String
  | .rejected line column log =>
    "Optimizer error at " ++ toString line.toNat ++ ":" ++ toString column.toNat ++ ": " ++ log
  | .malformed cause => "Malformed declaration: " ++ cause
  | .unwritten cause => "Serialization failed: " ++ cause
  | .invalid cause => "Invalid shader blob: " ++ cause

end ShaderPack
