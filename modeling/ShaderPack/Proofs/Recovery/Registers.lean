import ShaderPack.Proofs.Pack.RoundTrip
import ShaderPack.Proofs.Recovery.Completeness
import ShaderPack.Proofs.Recovery.HeaderSpans

namespace ShaderPack.Recovery

open Text
open Bytes (utf8)

/-!
# Registers of recovered bindings

Every binding of a table is of known kind, has 1 to 255 elements and nothing about a texture
(`Plain`); how it counts registers depends on where it is declared.

* `Header.plain_of_table`, `StructFields.plain_of_table`, `EntryTextures.plain_of_table` — the
  three places;
* `registers_recovered` — all of them, and what this leaves to go wrong when a table is packed.
-/

/-- A binding of known kind, with 1 to 255 elements and without a texture. -/
structure Plain (b : Binding) : Prop where
  known : b.kind ≠ .unknown
  lower : 1 ≤ b.size.toNat
  upper : b.size.toNat ≤ 255
  texture : b.texture = ⟨0, 0, 0⟩

/-! ### Sizes -/

/-- An accepted size is at least 1. -/
theorem AcceptedSize.one_le (a : AcceptedSize) : 1 ≤ a.size.toNat := a.toNat_size ▸ a.lower

theorem Header.Subscript.one_le (sub : Header.Subscript) : 1 ≤ sub.size.toNat := by
  cases sub with
  | array size behind => exact size.one_le
  | absent behind bare => exact Nat.le_refl 1

theorem StructFields.SizeIn.one_le {s : List Char} {size : UInt8} (h : SizeIn s size) :
    1 ≤ size.toNat := by
  obtain ⟨-, rfl⟩ | ⟨front, a, behind, -, -, rfl⟩ := h
  · exact Nat.le_refl 1
  · exact a.one_le

/-- A size is one byte. -/
theorem toNat_size_le (b : Binding) : b.size.toNat ≤ 255 := Nat.le_of_lt_succ b.size.toNat_lt

/-! ### One place after another -/

variable {source : String} {t : BindingTable} {b : Binding}

/-- In a declaration header, every element takes one register for each row. -/
theorem Header.plain_of_table (h : (Header.scan source).table = .ok t) (hb : b ∈ t.toList) :
    Plain b ∧ b.register = 0 ∧ b.registers.toNat = b.size.toNat * b.kind.rows := by
  obtain ⟨found, hfound, rfl⟩ := table_scan_eq_ok.mp h
  obtain ⟨spans, hspans⟩ := bindings?_spans [] hfound
  obtain ⟨span, -, hmarks⟩ := Findings.exists_piece hspans.marks hb
  obtain ⟨d, -, -, rfl⟩ := hmarks.declares
  refine ⟨⟨hmarks.known, d.subscript.one_le, toNat_size_le _, rfl⟩, rfl, ?_⟩
  have hrows : d.binding.kind.rows ≤ 4 := Kind.rows_le _
  have hless : d.binding.size.toNat * d.binding.kind.rows < 65536 := by
    have hproduct := Nat.mul_le_mul (toNat_size_le d.binding) hrows
    omega
  exact UInt16.toNat_ofNat_of_lt hless

/-- In the uniform struct, every element takes one register. -/
theorem StructFields.plain_of_table (h : (StructFields.scan source).table = .ok t)
    (hb : b ∈ t.toList) : Plain b ∧ b.register = 0 ∧ b.registers.toNat = b.size.toNat := by
  obtain ⟨body, -, text, -, hdeclares⟩ := declared_of_mem h hb
  have hknown : b.kind ≠ .unknown := bne_iff_ne.mp (t.known b hb)
  have htexture : b.texture = ⟨0, 0, 0⟩ := congrArg Binding.texture hdeclares.field
  have hregisters : b.registers = .ofNat b.size.toNat :=
    congrArg Binding.registers hdeclares.field
  have hless : b.size.toNat < 65536 := Nat.lt_of_le_of_lt (toNat_size_le b) (by decide)
  refine ⟨⟨hknown, hdeclares.size.one_le, toNat_size_le b, htexture⟩,
    congrArg Binding.register hdeclares.field, ?_⟩
  rw [hregisters, UInt16.toNat_ofNat_of_lt' hless]

/-- In the entry point, a texture is an integer handle in one register. -/
theorem EntryTextures.plain_of_table (h : (EntryTextures.scan source).table = .ok t)
    (hb : b ∈ t.toList) : Plain b ∧ b.kind = .int ∧ b.size = 1 ∧ b.registers = 1 := by
  obtain ⟨list, -, texts, -, hannotates⟩ := declared_of_mem h hb
  have hkind : b.kind = .int := congrArg Binding.kind hannotates.texture
  have hsize : b.size = 1 := congrArg Binding.size hannotates.texture
  have htexture : b.texture = ⟨0, 0, 0⟩ := congrArg Binding.texture hannotates.texture
  have hregisters : b.registers = 1 := congrArg Binding.registers hannotates.texture
  have hknown : b.kind ≠ .unknown := bne_iff_ne.mp (t.known b hb)
  exact ⟨⟨hknown, hsize ▸ Nat.le_refl 1, toNat_size_le b, htexture⟩, hkind, hsize, hregisters⟩

/-! ### Every table -/

/-- Whatever the dialect, every binding of a table is plain. -/
theorem plain_of_scan {m : Method} (h : (m.scan source).table = .ok t) (hb : b ∈ t.toList) :
    Plain b := by
  cases m with
  | header => exact (Header.plain_of_table h hb).1
  | structAndEntry =>
    obtain ⟨fields, textures, hfields, htextures, rfl⟩ := Findings.table_andThen_eq_ok.mp h
    rcases List.mem_append.mp hb with hb | hb
    · exact (StructFields.plain_of_table hfields hb).1
    · exact (EntryTextures.plain_of_table htextures hb).1

/-- **Registers are counted as the place of a declaration says**, in every table that is
    recovered: for each row in a declaration header, for each element in the uniform struct, and
    one for each texture; the fields of the struct come before the textures.  All bindings are
    plain, and the table is packed with any text unless there are too many of them or a name or
    the text is too long. -/
theorem registers_recovered (source : String) :
    (∀ (m : Method) (t : BindingTable), (m.scan source).table = .ok t →
      (∀ b ∈ t.toList, Plain b) ∧ ∀ text : String,
        (∀ fault, (PackedShader.mk t text).encode = .error fault →
          (PackedShader.mk t text).Exceeds fault) ∧
        ((∃ bytes, (PackedShader.mk t text).encode = .ok bytes) ↔
          t.length ≤ Pack.maxBindings ∧ (utf8 text).length ≤ Pack.maxSource ∧
            ∀ b ∈ t.toList, (utf8 b.name).length ≤ Pack.maxName)) ∧
    (∀ t, (Method.header.scan source).table = .ok t → ∀ b ∈ t.toList,
      b.register = 0 ∧ b.registers.toNat = b.size.toNat * b.kind.rows) ∧
    (∀ t, (StructFields.scan source).table = .ok t → ∀ b ∈ t.toList,
      b.register = 0 ∧ b.registers.toNat = b.size.toNat) ∧
    (∀ t, (EntryTextures.scan source).table = .ok t → ∀ b ∈ t.toList,
      b.kind = .int ∧ b.size = 1 ∧ b.registers = 1) ∧
    ∀ t, (Method.structAndEntry.scan source).table = .ok t →
      ∃ fields textures, (StructFields.scan source).table = .ok fields ∧
        (EntryTextures.scan source).table = .ok textures ∧
          t.toList = fields.toList ++ textures.toList := by
  refine ⟨fun m t h => ⟨fun b hb => plain_of_scan h hb, fun text => ?_⟩, fun t h b hb => ?_,
    fun t h b hb => ?_, fun t h b hb => ?_, fun t h => ?_⟩
  · exact ⟨fun fault hfault => PackedShader.exceeds_of_error hfault, PackedShader.encodes_iff⟩
  · exact (Header.plain_of_table h hb).2
  · exact (StructFields.plain_of_table h hb).2
  · exact (EntryTextures.plain_of_table h hb).2
  · obtain ⟨fields, textures, hfields, htextures, rfl⟩ := Findings.table_andThen_eq_ok.mp h
    exact ⟨fields, textures, hfields, htextures, rfl⟩

end ShaderPack.Recovery
