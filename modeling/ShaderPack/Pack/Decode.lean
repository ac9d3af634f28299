import ShaderPack.Bytes
import ShaderPack.Journal.Event
import ShaderPack.Pack.Basic

namespace ShaderPack.Pack

open Journal (Event)

/-!
# Reading a packed shader

Fields are read one after another; bytes that end too early are refused with the field and
the offset at which it begins.  A packed shader is read to its last byte: nothing may follow
its closing zero.
-/

/-- The bytes that are still to be read, and their offset. -/
structure Reader where
  offset : Nat
  rest : Bytes
  deriving DecidableEq, Repr

/-- Reading from a reader on, which may find a fault. -/
abbrev Reading := StateT Reader (Except ReadFault)

/-- The next bytes, which are the given field. -/
def take (field : Field) (count : Nat) : Reading Bytes := fun r =>
  -- what is left is not measured as a whole, which would take long at every field
  let taken := r.rest.take count
  if taken.length = count then .ok (taken, ⟨r.offset + count, r.rest.drop count⟩)
  else .error (.truncated field r.offset)

/-- A number of a fixed width. -/
def number (field : Field) (width : Nat) : Reading Nat := do
  return Bytes.ofLittleEndian (← take field width)

/-- A number of one byte. -/
def byte (field : Field) : Reading UInt8 := do
  return .ofNat (← number field 1)

/-- A number of two bytes. -/
def word (field : Field) : Reading UInt16 := do
  return .ofNat (← number field 2)

/-- A value that must be there; without it the fault is found. -/
def require {α : Type} (fault : ReadFault) : Option α → Reading α
  | some a => return a
  | none => throw fault

/-- A text behind its length, which takes `width` bytes; `fault` is what is wrong with bytes
    that are no text. -/
def readText (lengthField textField : Field) (width : Nat) (fault : ReadFault) :
    Reading String := do
  let length ← number lengthField width
  let bytes ← take textField length
  require fault (Bytes.decode? bytes)

/-- The name of the binding with this index. -/
def readName (index : Nat) : Reading String :=
  readText .nameLength .name 1 (.nameNotText index)

/-- The kind of the binding with this name. -/
def readKind (name : String) : Reading Kind := do
  let value ← byte .kind
  require (.unknownKind name value) (Kind.ofWire? value)

/-- What a record says about a texture. -/
def readTexture : Reading TextureInfo := do
  let component ← byte .textureComponent
  let dimension ← byte .textureDimension
  let format ← byte .textureFormat
  return { component, dimension, format }

/-- The record of the binding with this index. -/
def readRecord (index : Nat) : Reading Binding := do
  let name ← readName index
  let kind ← readKind name
  let size ← byte .size
  let register ← word .register
  let registers ← word .registers
  let texture ← readTexture
  return { name, kind, size, register, registers, texture }

/-- Records that are read one after another, `index` being that of the next one and `done`
    those read so far in reverse; a fault leaves the records before it. -/
def readRecords (r : Reader) (index : Nat) (done : List Binding) :
    Nat → List Binding × Except ReadFault Reader
  | 0 => (done.reverse, .ok r)
  | count + 1 =>
    match readRecord index r with
    | .error fault => (done.reverse, .error fault)
    | .ok (b, r) => readRecords r (index + 1) (b :: done) count

/-- The end of the bytes. -/
def readEnd : Reading Unit := fun r =>
  if r.rest = [] then .ok ((), r) else .error (.trailing r.rest.length)

/-- The zero that closes a packed shader, with nothing behind it. -/
def readClosing : Reading Unit := do
  let terminator ← number .terminator 1
  -- a wrong terminator is reported before bytes that follow it
  if terminator = 0 then readEnd else throw .notTerminated

/-- The source, which closes a packed shader. -/
def readSource : Reading String := do
  let source ← readText .sourceLength .source 4 .sourceNotText
  readClosing
  return source

/-- What reading a packed shader comes to: the bindings that were read and offered to its
    table, and the shader or what is wrong. -/
structure Decoding where
  offered : List Binding
  result : Except ReadFault PackedShader

/-- What reading a packed shader records. -/
def Decoding.events (d : Decoding) : List Event := d.offered.map .offered

/-- Reads a packed shader. -/
def decode (bytes : Bytes) : Decoding :=
  match number .count 2 ⟨0, bytes⟩ with
  | .error fault => ⟨[], .error fault⟩
  | .ok (count, r) =>
    match readRecords r 0 [] count with
    | (offered, .error fault) => ⟨offered, .error fault⟩
    | (offered, .ok r) =>
      match readSource r with
      | .error fault => ⟨offered, .error fault⟩
      | .ok (source, _) => ⟨offered, .ok ⟨.ofList offered, source⟩⟩

end ShaderPack.Pack
