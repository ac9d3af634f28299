import ShaderPack.Failure

namespace ShaderPack.Pack

/-!
# What can be wrong with a packed shader

`WriteFault` holds the reasons why a table and a source have no packed form or do not reach
their writer, `ReadFault` the reasons why bytes are no packed form.
-/

/-- Why a packed shader is not written. -/
inductive WriteFault
  | tooManyBindings (count : Nat)
  | sourceTooLong (bytes : Nat)
  | nameTooLong (name : String)
  /-- The writer failed. -/
  | undelivered (reason : String)
  deriving DecidableEq, Repr

namespace WriteFault

/-- The wording of a fault. -/
def message : WriteFault → String
  | .tooManyBindings count => toString count ++ " uniforms exceed the blob limit"
  | .sourceTooLong bytes => "source of " ++ toString bytes ++ " bytes exceeds the blob limit"
  | .nameTooLong name => "uniform name '" ++ name ++ "' is longer than 255 bytes"
  | .undelivered reason => "failed to write blob: " ++ reason

/-- The failure that a caller learns of. -/
def failure (fault : WriteFault) : Failure := .unwritten fault.message

end WriteFault

/-- The fields of a packed shader, in the order in which they are read. -/
inductive Field
  | count
  | nameLength
  | name
  | kind
  | size
  | register
  | registers
  | textureComponent
  | textureDimension
  | textureFormat
  | sourceLength
  | source
  | terminator
  deriving DecidableEq, Repr

/-- The name of a field in faults. -/
def Field.label : Field → String
  | .count => "uniform count"
  | .nameLength => "name length"
  | .name => "name"
  | .kind => "type"
  | .size => "array size"
  | .register => "register index"
  | .registers => "register count"
  | .textureComponent => "texture component"
  | .textureDimension => "texture dimension"
  | .textureFormat => "texture format"
  | .sourceLength => "source length"
  | .source => "source"
  | .terminator => "NUL terminator"

/-- Why bytes are no packed shader. -/
inductive ReadFault
  /-- The bytes end within the field that begins at `offset`. -/
  | truncated (field : Field) (offset : Nat)
  | nameNotText (index : Nat)
  | unknownKind (name : String) (value : UInt8)
  | sourceNotText
  | notTerminated
  | trailing (count : Nat)
  deriving DecidableEq, Repr

namespace ReadFault

/-- The wording of a fault. -/
def message : ReadFault → String
  | .truncated field offset =>
    "truncated while reading " ++ field.label ++ " at offset " ++ toString offset
  | .nameNotText index => "uniform " ++ toString index ++ " name is not UTF-8"
  | .unknownKind name value =>
    "uniform '" ++ name ++ "' has unknown type " ++ toString value.toNat
  | .sourceNotText => "source is not UTF-8"
  | .notTerminated => "source is not NUL-terminated"
  | .trailing count => toString count ++ " trailing bytes"

/-- The failure that a caller learns of. -/
def failure (fault : ReadFault) : Failure := .invalid fault.message

end ReadFault

end ShaderPack.Pack
