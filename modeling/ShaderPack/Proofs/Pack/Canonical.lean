import ShaderPack.Proofs.Pack.RoundTrip

namespace ShaderPack

/-!
# Packed shaders — the packed form is canonical

Tables come about in two ways only: a binding is offered to a table, or another table is put
behind it.  `BindingTable.Growth` is the history of a table, and `BindingTable.Growth.table_eq`
says what every history leads to: the bindings of known kind among those that were offered,
in their order, each as often as it was offered.

* `Pack.decode_packed_growth` — whatever the history of its table, a packed shader is read
  back as it was.
* `Pack.decode_canonical` — no bytes but packed shaders are read, two byte strings are never
  read as the same shader, all other bytes are refused as invalid, and reading stays inside
  the bytes.
-/

namespace BindingTable

/-- The history of a table. -/
inductive Growth
  /-- The new table. -/
  | empty
  /-- A binding is offered. -/
  | push (g : Growth) (b : Binding)
  /-- Another table is put behind. -/
  | extend (g other : Growth)

namespace Growth

/-- The table that a history leads to. -/
def table : Growth → BindingTable
  | .empty => .empty
  | .push g b => g.table.push b
  | .extend g other => g.table ++ other.table

/-- All bindings that were offered, in order, of known kind or not. -/
def offered : Growth → List Binding
  | .empty => []
  | .push g b => g.offered ++ [b]
  | .extend g other => g.offered ++ other.offered

/-- A history leads to the table of what was offered. -/
theorem table_eq (g : Growth) : g.table = .ofList g.offered := by
  induction g with
  | empty => rfl
  | push g b ih => rw [table, offered, ofList_append_singleton, ih]
  | extend g other ih ih' => rw [table, offered, ofList_append, ih, ih']

end Growth

end BindingTable

namespace Pack

open BindingTable (Growth)

/-- **Reading undoes packing.** A shader whose table has any history, with any source, is
    read back as it was whenever it has a packed form; its bindings are those of known kind
    that were offered, and all of them are offered again. -/
theorem decode_packed_growth (g : Growth) (source : String) {bytes : Bytes}
    (h : PackedShader.encode ⟨g.table, source⟩ = .ok bytes) :
    (decode bytes).result = .ok ⟨g.table, source⟩ ∧
      (decode bytes).offered = g.table.toList ∧
      g.table.toList = g.offered.filter Binding.isKnown := by
  obtain ⟨hfits, rfl⟩ := PackedShader.encode_eq_ok.mp h
  have hdecode := decode_layout hfits
  refine ⟨?_, ?_, ?_⟩
  · rw [hdecode]
  · rw [hdecode]
  · rw [g.table_eq, BindingTable.toList_ofList]

/-- A history with a binding of unknown kind, one that is offered twice, and names beyond
    ASCII. -/
def sampleGrowth : Growth :=
  .extend
    (.push (.push .empty (.declared "ü" .mat3 2)) (.declared "x" .unknown 1))
    (.push (.push .empty (.inSlot "" 513)) (.declared "ü" .mat3 2))

/-- What the table of `sampleGrowth` is packed to with the source `a`, NUL, `é`. -/
def samplePacked : Bytes :=
  [3, 0,
   2, 195, 188, 3, 2, 0, 0, 6, 0, 0, 0, 0,
   0, 0, 1, 1, 2, 1, 0, 0, 0, 0,
   2, 195, 188, 3, 2, 0, 0, 6, 0, 0, 0, 0,
   4, 0, 0, 0, 97, 0, 195, 169,
   0]

theorem decode_samplePacked :
    PackedShader.encode ⟨sampleGrowth.table, "a\x00é"⟩ = .ok samplePacked ∧
      (decode samplePacked).result = .ok ⟨sampleGrowth.table, "a\x00é"⟩ :=
  have h : PackedShader.encode ⟨sampleGrowth.table, "a\x00é"⟩ = .ok samplePacked := by rfl
  ⟨h, (decode_packed_growth sampleGrowth "a\x00é" h).1⟩

/-- **The packed form is canonical.** Bytes are read as a shader exactly when the shader is
    packed to them, so no two byte strings are read as the same shader; bytes to which no
    shader is packed are refused as invalid; and when the bytes end too early, the field that
    is missing begins inside them. -/
theorem decode_canonical (bytes : Bytes) :
    (∀ p, (decode bytes).result = .ok p ↔ p.encode = .ok bytes) ∧
    (∀ p other, (decode bytes).result = .ok p → (decode other).result = .ok p →
      other = bytes) ∧
    ((∀ p : PackedShader, p.encode ≠ .ok bytes) ↔
      ∃ cause, (decode bytes).result.mapError ReadFault.failure = .error (.invalid cause)) ∧
    ∀ field offset, (decode bytes).result = .error (.truncated field offset) →
      offset ≤ bytes.length := by
  refine ⟨fun p => decode_eq_ok_iff, fun p other h h' => ?_, ?_, fun _ _ => decode_within⟩
  · rw [decode_eq_ok_iff] at h h'
    exact Except.ok.inj (h'.symm.trans h)
  · simp only [ne_eq, ← decode_eq_ok_iff]
    cases (decode bytes).result with
    | ok p => simp [Except.mapError]
    | error fault => simp [Except.mapError, ReadFault.failure]

end Pack

end ShaderPack
