import ShaderPack.Bytes
import ShaderPack.Journal.Event
import ShaderPack.Pack.Basic

namespace ShaderPack.Pack

open Journal (Event)
open Bytes (littleEndian utf8)

/-!
# The packed form of a shader

All numbers are written with the lowest byte first and nothing is padded:

* the number of bindings (two bytes), then one record for each;
* a record: the length of the name (one byte), the name, the kind and the array size (one
  byte each), the first register and the number of registers (two bytes each), and three
  bytes about a texture;
* the length of the source (four bytes), the source, and a zero.

A table or source that does not fit these widths has no packed form.  The number of bindings
is looked at first, then the length of the source, then the names in order.
-/

/-- The largest number of bindings. -/
def maxBindings : Nat := 0xffff

/-- The largest number of bytes in a source. -/
def maxSource : Nat := 0xffffffff

/-- The largest number of bytes in a name. -/
def maxName : Nat := 0xff

/-- Whether the name of a binding fits its record. -/
def nameFits (b : Binding) : Bool := (utf8 b.name).length ≤ maxName

/-- The record of a binding. -/
def record (b : Binding) : Bytes :=
  littleEndian 1 (utf8 b.name).length ++ utf8 b.name ++ [b.kind.wire, b.size] ++
    littleEndian 2 b.register.toNat ++ littleEndian 2 b.registers.toNat ++
    [b.texture.component, b.texture.dimension, b.texture.format]

/-- The packed form of bindings and a source that fit. -/
def layout (bindings : List Binding) (source : Bytes) : Bytes :=
  littleEndian 2 bindings.length ++ bindings.flatMap record ++
    littleEndian 4 source.length ++ source ++ [0]

end ShaderPack.Pack

namespace ShaderPack.PackedShader

open Pack
open Journal (Event)
open Bytes (utf8)

/-- Why a shader has no packed form, if it has none. -/
def fault? (p : PackedShader) : Option WriteFault :=
  if maxBindings < p.bindings.length then some (.tooManyBindings p.bindings.length)
  else if maxSource < (utf8 p.source).length then
    some (.sourceTooLong (utf8 p.source).length)
  else (p.bindings.toList.find? fun b => !nameFits b).map fun b => .nameTooLong b.name

/-- The packed form of a shader. -/
def encode (p : PackedShader) : Except WriteFault Bytes :=
  match p.fault? with
  | some fault => .error fault
  | none => .ok (layout p.bindings.toList (utf8 p.source))

/-- What packing a shader records: an entry for each record that is written, then the fault
    if there is one.  Records are written up to the first name that does not fit. -/
def encodeEvents (p : PackedShader) : List Event :=
  let records := (p.bindings.toList.takeWhile nameFits).map Event.recorded
  match p.fault? with
  | none => records
  | some (.nameTooLong name) => records ++ [.unwritten (.nameTooLong name)]
  | some fault => [.unwritten fault]

end ShaderPack.PackedShader
