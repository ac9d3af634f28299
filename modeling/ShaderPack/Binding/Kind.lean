import ShaderPack.Text.Basic

namespace ShaderPack

/-!
# Kinds of bindings

A binding is bound through an integer handle, a vector or a matrix.  Type names of both
shading-language families are read by `Kind.ofName`; `Kind.wire` is the value that stands
for a kind in a packed shader, and `Kind.ofWire?` reads it back for the four kinds that a
packed shader may hold.
-/

/-- How the run time treats a binding. -/
inductive Kind
  | int
  | vec4
  | mat3
  | mat4
  /-- The type name is none of the known ones; no table holds such a binding. -/
  | unknown
  deriving DecidableEq, Repr

namespace Kind

/-- How the names of sampler types begin; samplers and textures are integer handles. -/
def samplerLeads : List String := ["sampler", "isampler", "usampler"]

/-- The kind that a type name stands for. -/
def ofName (name : String) : Kind :=
  if samplerLeads.any (Text.startsWith · name) then .int
  else match name with
    | "int" => .int
    | "vec4" | "float4" => .vec4
    | "mat3" | "float3x3" => .mat3
    | "mat4" | "float4x4" => .mat4
    | _ => .unknown

/-- The name of a kind in the journal. -/
def name : Kind → String
  | .int => "int"
  | .vec4 => "vec4"
  | .mat3 => "mat3"
  | .mat4 => "mat4"
  | .unknown => "unknown"

/-- The value of a kind in a packed shader; 1 is reserved. -/
def wire : Kind → UInt8
  | .int => 0
  | .vec4 => 2
  | .mat3 => 3
  | .mat4 => 4
  | .unknown => 0xff

/-- The kind of a value in a packed shader. -/
def ofWire? (value : UInt8) : Option Kind :=
  [int, vec4, mat3, mat4].find? (·.wire = value)

/-- A value in a packed shader stands for one kind, which is a known one. -/
theorem ofWire?_eq_some {value : UInt8} {kind : Kind} :
    ofWire? value = some kind ↔ kind ≠ .unknown ∧ value = kind.wire := by
  unfold ofWire?
  constructor
  · intro h
    have hmem := List.mem_of_find?_eq_some h
    have hwire : kind.wire = value := by simpa using List.find?_some h
    refine ⟨?_, hwire.symm⟩
    rintro rfl
    simp at hmem
  · rintro ⟨hknown, rfl⟩
    cases kind with
    | unknown => exact absurd rfl hknown
    | _ => rfl

/-- Registers that one array element takes: a matrix takes one for each row. -/
def rows : Kind → Nat
  | .mat3 => 3
  | .mat4 => 4
  | _ => 1

theorem rows_le (kind : Kind) : kind.rows ≤ 4 := by
  cases kind <;> decide

end Kind

end ShaderPack
