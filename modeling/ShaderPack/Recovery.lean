import ShaderPack.Dialect
import ShaderPack.Recovery.EntryTextures
import ShaderPack.Recovery.Header
import ShaderPack.Recovery.StructFields

namespace ShaderPack.Recovery

/-!
# Recovering the bindings of a source

Optimized text no longer comes with a list of its bindings, so they are read off the text.
Where they stand depends on the dialect: in the declaration header of the GL family, or in
the uniform struct and then the entry point of Metal-like text.
-/

/-- Where the bindings of a text stand. -/
inductive Method
  | header
  | structAndEntry
  deriving DecidableEq, Repr

/-- The findings in a source. -/
def Method.scan : Method → String → Findings
  | .header, source => Header.scan source
  | .structAndEntry, source => (StructFields.scan source).andThen (EntryTextures.scan source)

end ShaderPack.Recovery

namespace ShaderPack

/-- How the bindings of a dialect are recovered. -/
def Dialect.method (d : Dialect) : Recovery.Method :=
  if d.isMetal then .structAndEntry else .header

end ShaderPack
