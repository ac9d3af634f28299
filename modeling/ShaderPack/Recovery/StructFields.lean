import ShaderPack.Recovery.ArraySize
import ShaderPack.Recovery.Findings

namespace ShaderPack.Recovery.StructFields

open Text (Cursor)

/-!
# Fields of the uniform struct

Metal-like text gathers its uniforms in one generated struct.  Each of its fields, up to a
`;`, is a type, a name and an optional array size; all of them are bindings.  Text outside
the struct is not looked at, and without the struct nothing is found.
-/

/-- Opening of the generated struct. -/
def opening : String := "struct xlatMtlShaderUniform \x7b"

/-- Closing of the generated struct. -/
def closing : String := "\x7d;"

/-- The name and the array size in a declarator. -/
def nameAndSize (declarator : List Char) : Except Malformed (List Char × UInt8) :=
  match Text.cutAt? '[' declarator with
  | none => .ok (declarator, 1)
  | some (before, after) =>
    (arraySize after (.ofList before)).map (Text.trimEnd before, ·)

/-- A field whose `;` is at `eol`. -/
def fieldBefore? (c : Cursor) (eol : Nat) : Option Step := do
  let (type, c) ← c.nextWord?
  let text ← c.sliceTo? eol
  let declarator := Text.trim text
  -- an unreadable size is reported before a missing type or name
  match nameAndSize declarator with
  | .error cause => return .finish (.malformed cause)
  | .ok (name, size) =>
    if type.isEmpty || name.isEmpty then
      return .finish (.malformed (.incompleteField (.ofList declarator)))
    else
      return .move (some (.field (.ofList name) (.ofName (.ofList type)) size))
        (c.seek (eol + 1))

/-- The next field of the struct, if there is one. -/
def field? (c : Cursor) : Option Step := do
  let c ← c.skipSpace?
  if c.isEmpty then return .finish .complete
  else match ← c.find? ";" with
    | none =>
      let rest ← c.rest?
      return .finish (.malformed (.openField (.ofList (Text.trim rest))))
    | some eol => fieldBefore? c eol

/-! ### Reading never fails -/

/-- What remains behind a field comes behind its `;`. -/
theorem fieldBefore?_ahead {c : Cursor} {after : List Char} {eol : Nat}
    (h : c.Ahead ';' after eol) {c₀ : Cursor} (hlt : after.length < c₀.rest.length) :
    ∃ s, fieldBefore? c eol = some s ∧ s.Leaves c₀ := by
  obtain ⟨type, c₁, h₁, ha₁⟩ := h.nextWord? rfl rfl
  obtain ⟨text, htext⟩ := ha₁.sliceTo?
  simp only [fieldBefore?, h₁, htext, Option.bind_eq_bind, Option.bind_some]
  cases nameAndSize (Text.trim text) with
  | error cause => exact ⟨_, rfl, Step.leaves_finish _ _⟩
  | ok found =>
    by_cases hempty : (type.isEmpty || found.1.isEmpty) = true
    · exact ⟨_, if_pos hempty, Step.leaves_finish _ _⟩
    · have hseek : c₁.seek (eol + 1) = ⟨eol + 1, 0, after⟩ := ha₁.seek_through
      exact ⟨_, if_neg hempty, by
        rw [hseek]; exact Step.leaves_move (Cursor.onBoundary_mk _ _) hlt⟩

/-- A field is read from between two characters, and what remains comes behind its `;`. -/
theorem field?_reads (c : Cursor) (hc : c.OnBoundary) :
    ∃ s, field? c = some s ∧ s.Leaves c := by
  obtain ⟨c₁, h₁, hc₁, hsuffix⟩ := Cursor.skipSpace?_eq hc
  simp only [field?, h₁, Option.bind_eq_bind, Option.bind_some]
  by_cases hempty : c₁.isEmpty = true
  · exact ⟨_, by rw [if_pos hempty]; rfl, Step.leaves_finish _ _⟩
  · rw [if_neg hempty]
    obtain ⟨found, hfind⟩ := Cursor.find?_isSome hc₁ ";"
    rw [hfind, Option.bind_some]
    cases found with
    | none => exact ⟨_, by rw [Cursor.rest?_eq hc₁]; rfl, Step.leaves_finish _ _⟩
    | some eol =>
      obtain ⟨after, ha⟩ := Cursor.Ahead.of_find? hc₁ (x := ';') rfl hfind
      have := (ha.suffix.trans hsuffix).length_le
      exact fieldBefore?_ahead ha (by simp only [List.length_cons] at this; omega)

/-- A field is not read from inside a character. -/
theorem field?_refuses (c : Cursor) (hc : ¬c.OnBoundary) : field? c = none := by
  simp [field?, Cursor.skipSpace?, Cursor.skipWhile?, Cursor.rest?, hc]

/-- The search through the fields of the struct. -/
def fields : Pass := ⟨field?, field?_reads, field?_refuses⟩

/-! ### Scanning a source -/

/-- The findings in the uniform struct of a source, if they can be read. -/
def scan? (source : String) : Option Findings := do
  match ← (Cursor.ofList source.toList).cut? opening with
  | none => return ⟨[], .complete⟩
  | some (_, c) =>
    match ← c.cut? closing with
    | none => return ⟨[], .malformed .openStruct⟩
    | some (body, _) => fields.run? (.ofList body)

/-- The struct of every source can be read. -/
theorem scan?_isSome (source : String) : (scan? source).isSome := by
  rcases Cursor.cut?_cases (Cursor.onBoundary_ofList source.toList) opening with
    h | ⟨before, c, h, hc, -⟩
  · simp [scan?, h]
  · rcases Cursor.cut?_cases hc closing with h' | ⟨body, next, h', -, -⟩
    · simp [scan?, h, h']
    · simpa [scan?, h, h'] using fields.run?_isSome _ (Cursor.onBoundary_ofList body)

/-- The findings in the uniform struct of a source. -/
def scan (source : String) : Findings := (scan? source).get (scan?_isSome source)

end ShaderPack.Recovery.StructFields
