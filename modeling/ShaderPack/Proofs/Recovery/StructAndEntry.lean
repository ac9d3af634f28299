import ShaderPack.Proofs.Recovery.EntryTextures
import ShaderPack.Proofs.Recovery.StructFields
import ShaderPack.Recovery

namespace ShaderPack.Recovery.StructAndEntry

open Text
open StructFields (Body Field)
open EntryTextures (Annotated ParameterList separated slotMark)

/-!
# Metal-like texts — scanning what was written

A Metal-like text is written as a `Layout`: the uniform struct and, somewhere behind it, the
entry point, with any text around them.  The two searches go through the whole text, each for
its own opening, so all that matters of the other text is that it does not hold an earlier
opening.

`table_scan_layout` — the table holds the known fields of the struct and then the textures of
the entry point, each in order, and nothing else.
-/

/-! ### What a text is written as -/

/-- The text up to the opening of the entry point. -/
def head (before : List Char) (body : Body) (between : List Char) : List Char :=
  before ++ (StructFields.opening.toList ++
    (body.text ++ (StructFields.closing.toList ++ between)))

/-- The struct and the entry point of a text, and what stands around them. -/
structure Layout where
  before : List Char
  body : Body
  between : List Char
  parameters : ParameterList
  after : List Char
  firstStruct : ¬StructFields.opening.toList <:+: before
  firstEntry : ¬EntryTextures.opening.toList <:+: head before body between

namespace Layout

def text (l : Layout) : List Char :=
  head l.before l.body l.between ++ (EntryTextures.opening.toList ++
    (l.parameters.text ++ (EntryTextures.bodyOpening.toList ++ l.after)))

end Layout

/-! ### Scanning it -/

/-- **Every well-formed Metal-like text is recovered exactly.** Its table holds the bindings
    of the fields whose types are known, then the textures of the annotated parameters, in
    order, and nothing else. -/
theorem table_scan_layout (l : Layout) :
    ∃ table, (Method.structAndEntry.scan (.ofList l.text)).table = .ok table ∧
      table.toList = (l.body.fields.filter (·.kind ≠ .unknown)).map Field.binding ++
        l.parameters.annotated.map Annotated.binding := by
  have hstruct : StructFields.scan (.ofList l.text) =
      ⟨l.body.fields.map Field.binding, .complete⟩ :=
    StructFields.scan_body l.body
      (by simp only [String.toList_ofList, Layout.text, head, List.append_assoc]; rfl)
      l.firstStruct
  have hentry : EntryTextures.scan (.ofList l.text) =
      ⟨l.parameters.annotated.map Annotated.binding, .complete⟩ :=
    EntryTextures.scan_parameters l.parameters (by rw [String.toList_ofList]; rfl) l.firstEntry
  have hfields : (l.body.fields.map Field.binding).filter Binding.isKnown =
      (l.body.fields.filter (·.kind ≠ .unknown)).map Field.binding := by
    rw [List.filter_map]
    exact congrArg _ (List.filter_congr fun f _ => f.isKnown_binding)
  -- textures are integer handles, so none of them is dropped
  have htextures : (l.parameters.annotated.map Annotated.binding).filter Binding.isKnown =
      l.parameters.annotated.map Annotated.binding := by
    rw [List.filter_eq_self]
    intro b hb
    obtain ⟨a, -, rfl⟩ := List.mem_map.mp hb
    rfl
  refine ⟨.ofList (l.body.fields.map Field.binding ++
    l.parameters.annotated.map Annotated.binding), ?_, ?_⟩
  · rw [Method.scan, hstruct, hentry]
    rfl
  · rw [BindingTable.toList_ofList, List.filter_append, hfields, htextures]

/-! ### A sample -/

namespace Layout

/-- The blanks in the struct of the sample. -/
def tab : Gap := ⟨⟨['\t'], by decide⟩, by decide⟩

/-- A matrix and a field of unknown type. -/
def sampleBody : Body :=
  ⟨[{ blanks := tab.toBlanks
      type := ⟨"float4x4".toList, by decide, by decide⟩
      gap := tab
      name := ⟨"viewProj".toList, by decide, by decide⟩
      nameBlanks := tab.toBlanks
      array := some ⟨⟨tab.toBlanks, "2".toList, by decide, by decide, by decide, by decide,
        tab.toBlanks⟩, tab.toBlanks⟩ },
    { blanks := tab.toBlanks
      type := ⟨"float3".toList, by decide, by decide⟩
      gap := tab
      name := ⟨"light".toList, by decide, by decide⟩
      nameBlanks := tab.toBlanks
      array := none }], tab.toBlanks⟩

theorem texture2d_unmarked : ¬slotMark.toList <:+: "texture2d<float>".toList := by
  decide +kernel

theorem parenthesis_unmarked : ¬slotMark.toList <:+: ")\n".toList := by
  decide +kernel

theorem stageIn_unmarked : ¬slotMark.toList <:+: "Input i [[stage_in]]".toList := by
  decide +kernel

def sampleTexture : Annotated where
  lead := "texture2d<float>".toList
  unmarked := texture2d_unmarked
  space := ' '
  separated := by decide
  name := ⟨"s_tex".toList, by decide, by decide⟩
  nameBlanks := ⟨[' '], by decide⟩
  slot := ⟨⟨[], by decide⟩, "3".toList, by decide, by decide, by decide, ⟨[], by decide⟩⟩
  behind := ")\n".toList
  single := parenthesis_unmarked

theorem sampleTexture_unbraced :
    '\x7b' ∉ separated [.plain _ stageIn_unmarked, .annotated sampleTexture] := by
  decide +kernel

theorem struct_first : ¬StructFields.opening.toList <:+: [] := by
  decide +kernel

theorem entry_first :
    ¬EntryTextures.opening.toList <:+: head [] sampleBody "\nfragment ".toList := by
  decide +kernel

/-- The struct, then an annotated parameter behind another one. -/
def sample : Layout where
  before := []
  body := sampleBody
  between := "\nfragment ".toList
  parameters :=
    ⟨[.plain _ stageIn_unmarked, .annotated sampleTexture], sampleTexture_unbraced⟩
  after := "\x7d".toList
  firstStruct := struct_first
  firstEntry := entry_first

end Layout

/-- The sample as a source. -/
def sampleSource : String :=
  "struct xlatMtlShaderUniform \x7b\tfloat4x4\tviewProj\t[\t2\t]\t;" ++
    "\tfloat3\tlight\t;\t\x7d;\n" ++
    "fragment xlatMtlShaderOutput xlatMtlMain (Input i [[stage_in]]," ++
    "texture2d<float> s_tex [[texture(3)]])\n\x7b\x7d"

/-- The struct field of known type and the annotated parameter of the sample are found. -/
theorem table_scan_fragment :
    ∃ table, (Method.structAndEntry.scan sampleSource).table = .ok table ∧
      table.toList = [.field "viewProj" .mat4 2, .inSlot "s_tex" 3] := by
  have htext : String.ofList Layout.sample.text = sampleSource := by cbv
  obtain ⟨table, htable, hlist⟩ := table_scan_layout Layout.sample
  rw [htext] at htable
  exact ⟨table, htable, hlist.trans (by decide)⟩

end ShaderPack.Recovery.StructAndEntry
