namespace ShaderPack.Recovery

/-!
# Malformed declarations

The ways in which a declaration can fail to be readable, and their wording.
-/

/-- Why a declaration cannot be read.  The texts are cut from the source. -/
inductive Malformed
  /-- A `uniform` statement without a type or a name. -/
  | incompleteUniform (statement : String)
  /-- An array size without its closing bracket. -/
  | openArraySize (name : String)
  /-- An array size outside 1 to 255. -/
  | arraySizeOutOfRange (size : Nat) (name : String)
  /-- An array size that is no number. -/
  | arraySizeNotNumber (digits name : String)
  /-- The uniform struct does not end. -/
  | openStruct
  /-- The last field of the uniform struct does not end. -/
  | openField (field : String)
  /-- A struct field without a type or a name. -/
  | incompleteField (declarator : String)
  /-- A texture annotation without its closing parenthesis. -/
  | openTexture (name : String)
  /-- A texture annotation that no parameter name precedes. -/
  | unnamedTexture (slot : String)
  /-- A texture slot that is no number. -/
  | slotNotNumber (slot name : String)
  deriving DecidableEq, Repr

/-- The wording of a malformed declaration. -/
def Malformed.message : Malformed → String
  | .incompleteUniform statement => "incomplete uniform declaration '" ++ statement ++ "'"
  | .openArraySize name => "unterminated array size for '" ++ name ++ "'"
  | .arraySizeOutOfRange size name =>
    "array size " ++ toString size ++ " of '" ++ name ++ "' is out of range"
  | .arraySizeNotNumber digits name =>
    "array size '" ++ digits ++ "' of '" ++ name ++ "' is not a number"
  | .openStruct => "uniform struct is not terminated"
  | .openField field => "uniform struct field '" ++ field ++ "' has no ';'"
  | .incompleteField declarator => "incomplete uniform struct field '" ++ declarator ++ "'"
  | .openTexture name => "texture annotation of '" ++ name ++ "' is not closed"
  | .unnamedTexture slot => "texture(" ++ slot ++ ") annotation without a parameter name"
  | .slotNotNumber slot name => "texture slot '" ++ slot ++ "' of '" ++ name ++ "' is not a number"

end ShaderPack.Recovery
