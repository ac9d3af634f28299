import ShaderPack.Proofs.Recovery.Completeness

namespace ShaderPack.Recovery

open Text

/-!
# Metal-like text — which names are identifiers

The name of a field is all of the text behind its type, up to a bracket, and the name of a
texture is the last token in front of its annotation.  Neither is read as a word.  So a name is
an identifier exactly where a single word is written there (`names_recovered`); a field that
declares two names at once has both of them, and the comma, for its name
(`declarators_share_name`).
-/

/-! ### One word in place of a name -/

/-- One word stands behind the type of a field, up to the bracket, with white space around it. -/
def StructFields.NamesWord (text : List Char) : Prop :=
  ∃ (w : Word) (b b' : List Char), (∀ c ∈ b, isBlank c = true) ∧ (∀ c ∈ b', isBlank c = true) ∧
    (behindWord text).takeWhile (· != '[') = b ++ w.text ++ b'

/-- The last token in front of an annotation is a word. -/
def EntryTextures.NamesWord (front : List Char) : Prop :=
  ∃ w : Word, EntryTextures.LastToken front w.text

/-- The name of a field is an identifier exactly if a word is written in its place. -/
theorem StructFields.Declares.name_word_iff {text : List Char} {b : Binding}
    (h : Declares text b) : (∃ w : Word, w.text = b.name.toList) ↔ NamesWord text := by
  rw [h.name, nameIn]
  constructor
  · rintro ⟨w, hw⟩
    obtain ⟨front, behind, hfront, hbehind, htext⟩ :=
      exists_trim ((behindWord text).takeWhile (· != '['))
    exact ⟨w, front, behind, hfront, hbehind, hw ▸ htext⟩
  · rintro ⟨w, front, behind, hfront, hbehind, htext⟩
    refine ⟨w, ?_⟩
    rw [htext, trim_append hfront hbehind w.isBlank w.nonempty]

/-- The name of a texture is an identifier exactly if a word is written in its place. -/
theorem EntryTextures.Annotates.name_word_iff {texts : List Char × List Char} {b : Binding}
    (h : Annotates texts b) : (∃ w : Word, w.text = b.name.toList) ↔ NamesWord texts.1 := by
  have hname : parameterName texts.1 = b.name.toList := (parameterName_eq.mpr h.named).1
  constructor
  · rintro ⟨w, hw⟩
    exact ⟨w, hw ▸ h.named⟩
  · rintro ⟨w, hw⟩
    exact ⟨w, (parameterName_eq.mpr hw).1.symm.trans hname⟩

/-! ### The names of a table -/

variable {source : String} {t : BindingTable}

/-- A binding of Metal-like text is declared by a field or by an annotation. -/
theorem declared_of_mem (h : (Method.structAndEntry.scan source).table = .ok t) {b : Binding}
    (hb : b ∈ t.toList) :
    (∃ body, StructAndEntry.HasStruct body source ∧
        ∃ text ∈ StructFields.fieldTexts body.toList, StructFields.Declares text b) ∨
      ∃ list, EntryTextures.HasParameters list source ∧
        ∃ texts ∈ EntryTextures.annotationsIn list.toList, EntryTextures.Annotates texts b := by
  obtain ⟨fields, textures, hfields, htextures, rfl⟩ := Findings.table_andThen_eq_ok.mp h
  rcases List.mem_append.mp hb with hb | hb
  · exact .inl (StructFields.declared_of_mem hfields hb)
  · exact .inr (EntryTextures.declared_of_mem htextures hb)

/-- A field whose type is known has a binding in the table. -/
theorem mem_of_field (h : (Method.structAndEntry.scan source).table = .ok t)
    {body : String} {text : List Char} (hbody : StructAndEntry.HasStruct body source)
    (htext : text ∈ StructFields.fieldTexts body.toList)
    (hknown : Kind.ofName (.ofList (firstWord text)) ≠ .unknown) :
    ∃ b ∈ t.toList, StructFields.Declares text b := by
  obtain ⟨fields, textures, hfields, -, rfl⟩ := Findings.table_andThen_eq_ok.mp h
  obtain ⟨hread, -⟩ := (StructFields.scan_covers hbody).offered_of_table hfields
  obtain ⟨b, hoffered, hb⟩ := Findings.exists_found hread htext
  have hkept : b.isKnown = true := by
    rw [Binding.isKnown, hb.kind]
    exact bne_iff_ne.mpr hknown
  refine ⟨b, List.mem_append_left _ ?_, hb⟩
  rw [Findings.eq_ofList_of_table hfields]
  exact List.mem_filter.mpr ⟨hoffered, hkept⟩

/-- An annotation has a binding in the table. -/
theorem mem_of_annotation (h : (Method.structAndEntry.scan source).table = .ok t)
    {list : String} {texts : List Char × List Char}
    (hlist : EntryTextures.HasParameters list source)
    (htexts : texts ∈ EntryTextures.annotationsIn list.toList) :
    ∃ b ∈ t.toList, EntryTextures.Annotates texts b := by
  obtain ⟨fields, textures, -, htextures, rfl⟩ := Findings.table_andThen_eq_ok.mp h
  obtain ⟨hread, -⟩ := (EntryTextures.scan_covers hlist).offered_of_table htextures
  obtain ⟨b, hoffered, hb⟩ := Findings.exists_found hread htexts
  refine ⟨b, List.mem_append_right _ ?_, hb⟩
  rw [Findings.eq_ofList_of_table htextures, BindingTable.toList_ofList,
    EntryTextures.filter_isKnown hread]
  exact hoffered

/-- Every field of a known type and every annotation has one word in place of its name. -/
structure NamedByWords (source : String) : Prop where
  fields : ∀ body, StructAndEntry.HasStruct body source →
    ∀ text ∈ StructFields.fieldTexts body.toList,
      Kind.ofName (.ofList (firstWord text)) ≠ .unknown → StructFields.NamesWord text
  textures : ∀ list, EntryTextures.HasParameters list source →
    ∀ texts ∈ EntryTextures.annotationsIn list.toList, EntryTextures.NamesWord texts.1

/-- A field has nothing but white space in place of its name, or an annotation has no token
    there. -/
def Nameless (source : String) : Prop :=
  (∃ body, StructAndEntry.HasStruct body source ∧ ∃ text ∈ StructFields.fieldTexts body.toList,
      StructFields.nameIn (behindWord text) = []) ∨
    ∃ list, EntryTextures.HasParameters list source ∧
      ∃ texts ∈ EntryTextures.annotationsIn list.toList,
        ∀ name, ¬EntryTextures.LastToken texts.1 name

/-- All names of a table are identifiers exactly if words are written in their places. -/
theorem names_words_iff (h : (Method.structAndEntry.scan source).table = .ok t) :
    (∀ b ∈ t.toList, ∃ w : Word, w.text = b.name.toList) ↔ NamedByWords source := by
  constructor
  · intro hwords
    refine ⟨fun body hbody text htext hknown => ?_, fun list hlist texts htexts => ?_⟩
    · obtain ⟨b, hmem, hb⟩ := mem_of_field h hbody htext hknown
      exact hb.name_word_iff.mp (hwords b hmem)
    · obtain ⟨b, hmem, hb⟩ := mem_of_annotation h hlist htexts
      exact hb.name_word_iff.mp (hwords b hmem)
  · intro hwords b hmem
    rcases declared_of_mem h hmem with
      ⟨body, hbody, text, htext, hb⟩ | ⟨list, hlist, texts, htexts, hb⟩
    · have hknown : Kind.ofName (.ofList (firstWord text)) ≠ .unknown := by
        rw [← hb.kind]
        exact bne_iff_ne.mp (t.known b hmem)
      exact hb.name_word_iff.mpr (hwords.fields body hbody text htext hknown)
    · exact hb.name_word_iff.mpr (hwords.textures list hlist texts htexts)

/-- A part without a name is malformed. -/
theorem error_of_nameless (h : Nameless source) :
    ∃ cause, (Method.structAndEntry.scan source).table = .error cause := by
  rw [table_structAndEntry_error_iff]
  rcases h with ⟨body, hbody, text, htext, hname⟩ | ⟨list, hlist, texts, htexts, hname⟩
  · refine .inl (.inr ⟨body, hbody, .inr ⟨text, htext, fun b hb => ?_⟩⟩)
    exact hb.named (hb.name.trans hname)
  · exact .inr ⟨list, hlist, texts, htexts, fun b hb => hname _ hb.named⟩

/-- **The names in a table of Metal-like text.**  No name is empty, and a part without a name is
    malformed; all names are identifiers exactly if one word is written in the place of each. -/
theorem names_recovered (source : String) :
    (∀ t, (Method.structAndEntry.scan source).table = .ok t →
      (∀ b ∈ t.toList, b.name ≠ "") ∧
        ((∀ b ∈ t.toList, ∃ w : Word, w.text = b.name.toList) ↔ NamedByWords source)) ∧
    (Nameless source → ∃ cause, (Method.structAndEntry.scan source).table = .error cause) := by
  refine ⟨fun t h => ⟨fun b hmem => ?_, names_words_iff h⟩, error_of_nameless⟩
  have hnamed : b.name.toList ≠ [] := by
    rcases declared_of_mem h hmem with ⟨-, -, text, -, hb⟩ | ⟨-, -, texts, -, hb⟩
    · exact hb.named
    · exact (EntryTextures.parameterName_eq.mpr hb.named).2
  rintro hempty
  rw [hempty] at hnamed
  exact hnamed rfl

/-- The field of a struct declares two names at once, and its binding has both for its name. -/
theorem declarators_share_name :
    (Method.structAndEntry.scan
        "struct xlatMtlShaderUniform \x7b\n  float4 u_a, u_b;\n\x7d;\n").table =
      .ok (.ofList [.field "u_a, u_b" .vec4 1]) ∧
    ¬∃ w : Word, w.text = "u_a, u_b".toList := by
  refine ⟨?_, ?_⟩
  · have hstruct : StructAndEntry.HasStruct "\n  float4 u_a, u_b;\n"
        "struct xlatMtlShaderUniform \x7b\n  float4 u_a, u_b;\n\x7d;\n" :=
      ⟨[], ['\n'], by decide +kernel, by decide +kernel, by decide +kernel⟩
    have hfield : StructFields.Declares "\n  float4 u_a, u_b".toList
        (.field "u_a, u_b" .vec4 1) :=
      ⟨by decide, by decide, by decide, by decide, .inl ⟨by decide, rfl⟩, rfl⟩
    have hscan := StructFields.scan_eq hstruct (.cons hfield .nil) (by decide)
    have hentry : EntryTextures.scan
        "struct xlatMtlShaderUniform \x7b\n  float4 u_a, u_b;\n\x7d;\n" = ⟨[], .complete⟩ :=
      EntryTextures.scan_of_free (by decide +kernel)
    rw [Method.scan, hscan, hentry]
    rfl
  · rintro ⟨w, hw⟩
    have hcomma : ',' ∈ w.text := hw ▸ by decide
    exact absurd (w.word ',' hcomma) (by decide)

end ShaderPack.Recovery
