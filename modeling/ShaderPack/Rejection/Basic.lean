import ShaderPack.Failure
import ShaderPack.Text.Basic
import ShaderPack.Text.Blank
import ShaderPack.Text.Decimal

namespace ShaderPack

/-!
# Rejections by the optimizer

An optimizer that refuses a source says so in a log of free form.  Two beginnings of a log
name a place in the source, `0:12(4)` and `(12,4)`; in the first one the number before the
colon stands for the source itself.  A log that begins in neither way names no place, and
line and column are 0.
-/

/-- A refusal: the line and column it names, and the log without the blanks behind it. -/
structure Rejection where
  line : UInt32
  column : UInt32
  log : String
  deriving DecidableEq, Repr

namespace Rejection

/-- The largest line and column. -/
def placeLimit : Nat := 0xffffffff

/-- The number in a text, blanks around it aside. -/
def number? (s : List Char) : Option Nat := Text.Decimal.parse? placeLimit (Text.trim s)

/-- The place in a log that begins like `0:12(4)`. -/
def sourcePlace? (log : List Char) : Option (Nat × Nat) := do
  let (source, log) ← Text.cutAt? ':' log
  let _ ← number? source
  let (line, log) ← Text.cutAt? '(' log
  let (column, _) ← Text.cutAt? ')' log
  return (← number? line, ← number? column)

/-- The place in a log that begins like `(12,4)`. -/
def pairPlace? (log : List Char) : Option (Nat × Nat) :=
  match Text.trimStart log with
  | '(' :: log => do
    let (line, log) ← Text.cutAt? ',' log
    let (column, _) ← Text.cutAt? ')' log
    return (← number? line, ← number? column)
  | _ => none

/-- The place that a log names; line and column are 0 if it names none. -/
def place (log : List Char) : Nat × Nat :=
  ((sourcePlace? log).or (pairPlace? log)).getD (0, 0)

/-- The refusal that a log tells of. -/
def ofLog (log : String) : Rejection :=
  let (line, column) := place log.toList
  { line := .ofNat line, column := .ofNat column, log := .ofList (Text.trimEnd log.toList) }

/-- The failure that a caller learns of. -/
def failure (r : Rejection) : Failure := .rejected r.line r.column r.log

end Rejection

end ShaderPack
