import ShaderPack.Recovery.Findings
import ShaderPack.Text.Blank
import ShaderPack.Text.Decimal

namespace ShaderPack.Recovery.EntryTextures

open Text (Cursor)

/-!
# Textures of the entry point

Metal-like text binds textures in the parameter list of its generated entry point: a
parameter with the annotation `[[texture(N)]]` is bound to slot `N`.  Parameters without it
are passed over; text behind the first brace after the parameters is not looked at, and
without the entry point nothing is found.
-/

/-- Opening of the parameter list of the generated entry point. -/
def opening : String := "xlatMtlShaderOutput xlatMtlMain ("

/-- Opening of the function body, where the parameters end. -/
def bodyOpening : String := "\x7b"

/-- Opening of a texture annotation. -/
def slotMark : String := "[[texture("

/-- The largest slot. -/
def slotLimit : Nat := 0xffff

/-- The name of a parameter, which is what the text before its annotation ends with; it
    begins behind a blank or a comma. -/
def parameterName (before : List Char) : List Char :=
  ((Text.trimEnd before).reverse.takeWhile fun c => !Text.isBlank c && c != ',').reverse

/-- The binding of a parameter to the slot in its annotation. -/
def inSlot (name slot : List Char) : Except Malformed Binding :=
  if name.isEmpty then .error (.unnamedTexture (.ofList slot))
  else match Text.Decimal.parse? slotLimit slot with
    | none => .error (.slotNotNumber (.ofList slot) (.ofList name))
    | some n => .ok (.inSlot (.ofList name) (.ofNat n))

/-- The next annotated parameter, if there is one. -/
def parameter? (c : Cursor) : Option Step := do
  match ← c.cut? slotMark with
  | none => return .finish .complete
  | some (before, c) =>
    let name := parameterName before
    -- an open annotation is reported before a missing name
    match ← c.cut? ")" with
    | none => return .finish (.malformed (.openTexture (.ofList name)))
    | some (slot, next) =>
      match inSlot name (Text.trim slot) with
      | .error cause => return .finish (.malformed cause)
      | .ok binding => return .move (some binding) next

/-! ### Reading never fails -/

/-- A parameter is read from between two characters, and what remains comes behind its
    annotation. -/
theorem parameter?_reads (c : Cursor) (hc : c.OnBoundary) :
    ∃ s, parameter? c = some s ∧ s.Leaves c := by
  rcases Cursor.cut?_cases hc slotMark with h | ⟨before, c₁, h, hc₁, hs⟩
  · exact ⟨.finish .complete, by simp [parameter?, h], Step.leaves_finish _ _⟩
  · rcases Cursor.cut?_cases hc₁ ")" with h' | ⟨slot, next, h', hnext, hs'⟩
    · exact ⟨_, by simp only [parameter?, h, h', Option.bind_eq_bind, Option.bind_some]; rfl,
        Step.leaves_finish _ _⟩
    · simp only [parameter?, h, h', Option.bind_eq_bind, Option.bind_some]
      cases inSlot (parameterName before) (Text.trim slot) with
      | error cause => exact ⟨_, rfl, Step.leaves_finish _ _⟩
      | ok binding =>
        refine ⟨_, rfl, Step.leaves_move hnext ?_⟩
        simp only [hs, hs', List.length_append]
        have : 0 < slotMark.toList.length := by decide
        omega

/-- A parameter is not read from inside a character. -/
theorem parameter?_refuses (c : Cursor) (hc : ¬c.OnBoundary) : parameter? c = none := by
  simp [parameter?, Cursor.cut?, Cursor.find?, Cursor.rest?, hc]

/-- The search through the parameters of the entry point. -/
def parameters : Pass := ⟨parameter?, parameter?_reads, parameter?_refuses⟩

/-! ### Scanning a source -/

/-- The findings in the entry point of a source, if they can be read. -/
def scan? (source : String) : Option Findings := do
  match ← (Cursor.ofList source.toList).cut? opening with
  | none => return ⟨[], .complete⟩
  | some (_, c) =>
    match ← c.cut? bodyOpening with
    | none =>
      let list ← c.rest?
      parameters.run? (.ofList list)
    | some (list, _) => parameters.run? (.ofList list)

/-- The entry point of every source can be read. -/
theorem scan?_isSome (source : String) : (scan? source).isSome := by
  rcases Cursor.cut?_cases (Cursor.onBoundary_ofList source.toList) opening with
    h | ⟨before, c, h, hc, -⟩
  · simp [scan?, h]
  · rcases Cursor.cut?_cases hc bodyOpening with h' | ⟨list, next, h', -, -⟩
    · simpa [scan?, h, h', Cursor.rest?_eq hc] using
        parameters.run?_isSome _ (Cursor.onBoundary_ofList c.rest)
    · simpa [scan?, h, h'] using parameters.run?_isSome _ (Cursor.onBoundary_ofList list)

/-- The findings in the entry point of a source. -/
def scan (source : String) : Findings := (scan? source).get (scan?_isSome source)

end ShaderPack.Recovery.EntryTextures
