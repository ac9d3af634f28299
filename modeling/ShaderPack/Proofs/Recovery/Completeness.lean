import ShaderPack.Proofs.Recovery.AnnotationTexts
import ShaderPack.Proofs.Recovery.FieldTexts
import ShaderPack.Recovery

namespace ShaderPack.Recovery

/-!
# Metal-like text — nothing is lost and nothing is found twice

A table comes out only if every part of the text was read: one binding was offered for each `;`
of the struct, and one is in the table for each annotation of the entry point
(`every_part_read`).  Otherwise there is no table at all, since two searches have one only if
each of them has (`Findings.table_andThen_eq_ok`).
-/

/-- The two searches of Metal-like text have no table exactly if one of them has none. -/
theorem table_structAndEntry_error_iff (source : String) :
    (∃ cause, (Method.structAndEntry.scan source).table = .error cause) ↔
      StructFields.Unread source ∨ EntryTextures.Unread source := by
  rw [← StructFields.table_error_iff, ← EntryTextures.table_error_iff]
  show (∃ cause, ((StructFields.scan source).andThen (EntryTextures.scan source)).table = _) ↔ _
  exact Findings.table_andThen_error_iff

/-- **Every part of Metal-like text is read once.**  A table of the struct was made from one
    binding for each `;` in its body, and each was read from the text of its field; a table of
    the entry point holds one binding for each annotation in the parameter list, with the slot
    that is written there.  If one of these texts declares nothing, the whole search has no
    table. -/
theorem every_part_read (source : String) :
    (∀ t, (StructFields.scan source).table = .ok t →
      let offered := (StructFields.scan source).offered
      t = .ofList offered ∧
        ((¬StructFields.opening.toList <:+: source.toList ∧ offered = []) ∨
          ∃ body, StructAndEntry.HasStruct body source ∧
            offered.length = body.toList.count ';' ∧
            List.Forall₂ StructFields.Declares (StructFields.fieldTexts body.toList) offered)) ∧
    (∀ t, (EntryTextures.scan source).table = .ok t →
      (¬EntryTextures.opening.toList <:+: source.toList ∧ t.toList = []) ∨
        ∃ list, EntryTextures.HasParameters list source ∧
          t.length = Text.occurrences EntryTextures.slotMark.toList list.toList ∧
          List.Forall₂ EntryTextures.Annotates (EntryTextures.annotationsIn list.toList) t.toList) ∧
    ((∃ cause, (Method.structAndEntry.scan source).table = .error cause) ↔
      StructFields.Unread source ∨ EntryTextures.Unread source) := by
  refine ⟨fun t htable => ⟨?_, ?_⟩, fun t htable => ?_, table_structAndEntry_error_iff source⟩
  · exact Findings.eq_ofList_of_table htable
  · refine (StructFields.offered_of_table htable).imp_right ?_
    rintro ⟨body, hbody, hfields⟩
    refine ⟨body, hbody, ?_, hfields⟩
    rw [← hfields.length_eq, StructFields.length_fieldTexts]
  · refine (EntryTextures.toList_of_table htable).imp_right ?_
    rintro ⟨list, hlist, htextures⟩
    refine ⟨list, hlist, ?_, htextures⟩
    rw [BindingTable.length, ← htextures.length_eq, EntryTextures.length_annotationsIn]

end ShaderPack.Recovery
