namespace ShaderPack.Text.Decimal

/-!
# Decimal numbers in a text

A number is an optional `+` and one or more ASCII digits; leading zeros are free, and a
value above the limit of its field is refused rather than cut.
-/

/-- Value of a digit string, most significant digit first. -/
def value (digits : List Char) : Nat :=
  digits.foldl (fun n c => 10 * n + (c.toNat - '0'.toNat)) 0

/-- The digits of a number without its sign. -/
def unsigned : List Char → List Char
  | '+' :: digits => digits
  | digits => digits

/-- The number written in `s`, if `s` is one and it does not exceed `limit`. -/
def parse? (limit : Nat) (s : List Char) : Option Nat :=
  let digits := unsigned s
  if digits.isEmpty || !digits.all Char.isDigit then none
  else if value digits ≤ limit then some (value digits)
  else none

end ShaderPack.Text.Decimal
