import ShaderPack.Binding.Kind

namespace ShaderPack

/-!
# Bindings

One externally bindable input of a shader: its name, kind, array size and registers.
Each place where a binding can be declared counts registers in its own way, so there is one
constructor function for each: `declared`, `field` and `texture`.
-/

/-- What the run time keeps about a texture; passed on as it is. -/
structure TextureInfo where
  component : UInt8 := 0
  dimension : UInt8 := 0
  format : UInt8 := 0
  deriving DecidableEq, Repr

/-- One externally bindable input. -/
structure Binding where
  name : String
  kind : Kind
  /-- Number of array elements; 1 for what is no array. -/
  size : UInt8
  /-- First register. -/
  register : UInt16
  /-- Number of registers. -/
  registers : UInt16
  texture : TextureInfo := {}
  deriving DecidableEq, Repr

namespace Binding

/-- A uniform of a declaration header: every element takes one register for each row. -/
def declared (name : String) (kind : Kind) (size : UInt8) : Binding :=
  { name, kind, size, register := 0, registers := .ofNat (size.toNat * kind.rows) }

/-- A field of a uniform struct: every element takes one register. -/
def field (name : String) (kind : Kind) (size : UInt8) : Binding :=
  { name, kind, size, register := 0, registers := .ofNat size.toNat }

/-- A texture that is bound to an explicit slot. -/
def inSlot (name : String) (slot : UInt16) : Binding :=
  { name, kind := .int, size := 1, register := slot, registers := 1 }

/-- Whether the type of the binding is a known one. -/
def isKnown (b : Binding) : Bool := b.kind != .unknown

end Binding

end ShaderPack
