import ShaderPack.Binding.Table

namespace ShaderPack

/-!
# Packed shaders
-/

/-- What the run time loads: the bindings of a shader and its final source. -/
structure PackedShader where
  bindings : BindingTable
  source : String
  deriving DecidableEq

end ShaderPack
