namespace ShaderPack

/-!
# Shader stages
-/

/-- The stage of the pipeline that a shader runs in. -/
inductive Stage
  | vertex
  | fragment
  | compute
  deriving DecidableEq, Repr

namespace Stage

/-- The stage of a one-letter tag; every tag but those of the other two means vertex. -/
def ofTag : Char → Stage
  | 'f' => .fragment
  | 'c' => .compute
  | _ => .vertex

/-- The one-letter tag of a stage. -/
def tag : Stage → Char
  | .vertex => 'v'
  | .fragment => 'f'
  | .compute => 'c'

/-- The name of a stage in the journal. -/
def name : Stage → String
  | .vertex => "Vertex"
  | .fragment => "Fragment"
  | .compute => "Compute"

end Stage

end ShaderPack
