import ShaderPack.Recovery.Malformed
import ShaderPack.Text.Basic
import ShaderPack.Text.Blank
import ShaderPack.Text.Decimal

namespace ShaderPack.Recovery

/-!
# Array sizes

The size of an array is a decimal number from 1 to 255 in brackets.  Blanks around it are
free.
-/

/-- The limit of numbers that are read at all; above it a size is no number. -/
def arraySizeLimit : Nat := 0xffffffff

/-- The array size at the beginning of `text`, which follows the opening bracket, for the
    array called `name`. -/
def arraySize (text : List Char) (name : String) : Except Malformed UInt8 :=
  match Text.cutAt? ']' text with
  | none => .error (.openArraySize name)
  | some (inside, _) =>
    let digits := Text.trim inside
    match Text.Decimal.parse? arraySizeLimit digits with
    | none => .error (.arraySizeNotNumber (.ofList digits) name)
    | some size =>
      if 1 ≤ size ∧ size ≤ 255 then .ok (.ofNat size)
      else .error (.arraySizeOutOfRange size name)

end ShaderPack.Recovery
