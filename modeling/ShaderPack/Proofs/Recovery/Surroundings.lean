import ShaderPack.Proofs.Recovery.EntryTextures
import ShaderPack.Proofs.Recovery.StructFields
import ShaderPack.Recovery

namespace ShaderPack.Recovery.StructAndEntry

open Text (Encloses of_chars)

/-!
# Metal-like texts — what is not read

Each of the two searches in a Metal-like text cuts one section out of it and reads nothing else:
the body of the uniform struct, and the parameter list of the entry point.  The patterns that
bound a section end in a character that stands nowhere else in them, so none of them can begin
earlier and reach across the seam to the text in front.

`surroundings_unread` — texts that enclose the same sections have the same findings, whatever is
written around the sections: the same bindings, the same failure and the same entries in the
journal.
-/

/-- The text has a uniform struct with this body. -/
def HasStruct (body source : String) : Prop :=
  Encloses StructFields.opening.toList StructFields.closing.toList body.toList source.toList

/-- The text has an entry point with these parameters. -/
def HasEntry (list source : String) : Prop :=
  Encloses EntryTextures.opening.toList EntryTextures.bodyOpening.toList list.toList source.toList

/-- A struct with an opening before it and a closing behind it. -/
theorem hasStruct_append {body : String} (before after : String)
    (hfirst : ¬StructFields.opening.toList <:+: before.toList)
    (hbody : ¬StructFields.closing.toList <:+: body.toList) :
    HasStruct body (before ++ StructFields.opening ++ body ++ StructFields.closing ++ after) :=
  ⟨before.toList, after.toList, by simp, hfirst, hbody⟩

/-- An entry point with an opening before its parameters and a brace behind them. -/
theorem hasEntry_append {list : String} (before after : String)
    (hfirst : ¬EntryTextures.opening.toList <:+: before.toList) (hlist : '\x7b' ∉ list.toList) :
    HasEntry list (before ++ EntryTextures.opening ++ list ++ EntryTextures.bodyOpening ++ after) :=
  ⟨before.toList, after.toList, by simp, hfirst, fun h => hlist (h.subset (by decide))⟩

theorem scan_eq_of_hasStruct {body source source' : String} (h : HasStruct body source)
    (h' : HasStruct body source') : StructFields.scan source = StructFields.scan source' := by
  have hscan := (StructFields.scan?_encloses h).trans (StructFields.scan?_encloses h').symm
  exact Option.get_of_eq_some _ (hscan.trans (Option.some_get _).symm)

theorem scan_eq_of_hasEntry {list source source' : String} (h : HasEntry list source)
    (h' : HasEntry list source') : EntryTextures.scan source = EntryTextures.scan source' := by
  have hscan := (EntryTextures.scan?_encloses h).trans (EntryTextures.scan?_encloses h').symm
  exact Option.get_of_eq_some _ (hscan.trans (Option.some_get _).symm)

/-- **What stands around a section is not read.** A search finds the same in any two texts that
    enclose the same body or the same parameters, and so do both together. -/
theorem surroundings_unread :
    (∀ body before before' after after' : String,
      ¬StructFields.closing.toList <:+: body.toList →
      ¬StructFields.opening.toList <:+: before.toList →
      ¬StructFields.opening.toList <:+: before'.toList →
      StructFields.scan
          (before ++ StructFields.opening ++ body ++ StructFields.closing ++ after) =
        StructFields.scan
          (before' ++ StructFields.opening ++ body ++ StructFields.closing ++ after')) ∧
    (∀ list before before' after after' : String,
      '\x7b' ∉ list.toList →
      ¬EntryTextures.opening.toList <:+: before.toList →
      ¬EntryTextures.opening.toList <:+: before'.toList →
      EntryTextures.scan
          (before ++ EntryTextures.opening ++ list ++ EntryTextures.bodyOpening ++ after) =
        EntryTextures.scan
          (before' ++ EntryTextures.opening ++ list ++ EntryTextures.bodyOpening ++ after')) ∧
    ∀ body list source source' : String,
      HasStruct body source → HasStruct body source' →
      HasEntry list source → HasEntry list source' →
      Method.structAndEntry.scan source = Method.structAndEntry.scan source' := by
  refine ⟨?_, ?_, ?_⟩
  · intro body before before' after after' hbody hfirst hfirst'
    exact scan_eq_of_hasStruct (hasStruct_append before after hfirst hbody)
      (hasStruct_append before' after' hfirst' hbody)
  · intro list before before' after after' hlist hfirst hfirst'
    exact scan_eq_of_hasEntry (hasEntry_append before after hfirst hlist)
      (hasEntry_append before' after' hfirst' hlist)
  · intro body list source source' hstruct hstruct' hentry hentry'
    rw [Method.scan, Method.scan, scan_eq_of_hasStruct hstruct hstruct',
      scan_eq_of_hasEntry hentry hentry']

/-! ### A sample -/

/-- The body of a struct. -/
def quietBody : String := " float4 tint; "

/-- The parameters of an entry point. -/
def quietList : String := "texture2d<float> t [[texture(1)]])\n"

/-- The two sections with nothing around them. -/
def quietText : String :=
  StructFields.opening ++ quietBody ++ StructFields.closing ++ EntryTextures.opening ++
    quietList ++ EntryTextures.bodyOpening

/-- The two sections behind a comment, with another struct between them and an annotation behind
    the parameters. -/
def crowdedText : String :=
  "// float4 a;\n" ++ StructFields.opening ++ quietBody ++ StructFields.closing ++
    "struct B \x7b float4 b; \x7d;\n" ++ EntryTextures.opening ++ quietList ++
    EntryTextures.bodyOpening ++ "sampler c [[texture(9)]]; \x7d;"

theorem quietBody_unclosed : ¬StructFields.closing.toList <:+: quietBody.toList :=
  of_chars (P := fun w => ¬w <:+: _) (of_chars (P := fun s => ¬_ <:+: s) (by decide))

theorem quietList_unbraced : '\x7b' ∉ quietList.toList :=
  of_chars (P := fun s => '\x7b' ∉ s) (by decide)

theorem comment_unopened : ¬StructFields.opening.toList <:+: "// float4 a;\n".toList :=
  of_chars (P := fun w => ¬w <:+: _) (of_chars (P := fun s => ¬_ <:+: s) (by decide))

theorem scan_crowdedText :
    Method.structAndEntry.scan crowdedText = Method.structAndEntry.scan quietText := by
  have hstruct : HasStruct quietBody crowdedText := by
    have h := hasStruct_append "// float4 a;\n" ("struct B \x7b float4 b; \x7d;\n" ++
      EntryTextures.opening ++ quietList ++ EntryTextures.bodyOpening ++
      "sampler c [[texture(9)]]; \x7d;") comment_unopened quietBody_unclosed
    rwa [← String.append_assoc, ← String.append_assoc, ← String.append_assoc,
      ← String.append_assoc] at h
  have hentry : HasEntry quietList crowdedText :=
    hasEntry_append _ _ (by decide +kernel) quietList_unbraced
  have hstruct' : HasStruct quietBody quietText := by
    have h := hasStruct_append "" (EntryTextures.opening ++ quietList ++
      EntryTextures.bodyOpening) (by decide) quietBody_unclosed
    rwa [← String.append_assoc, ← String.append_assoc, String.empty_append] at h
  have hentry' : HasEntry quietList quietText := by
    have h := hasEntry_append (StructFields.opening ++ quietBody ++ StructFields.closing) ""
      (by decide +kernel) quietList_unbraced
    rwa [String.append_empty] at h
  exact surroundings_unread.2.2 quietBody quietList crowdedText quietText hstruct hstruct' hentry
    hentry'

end ShaderPack.Recovery.StructAndEntry
